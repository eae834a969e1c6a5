import ZenFs.Tectonic.Generate
import ZenFs.Tectonic.KeySetLaws

/-!
The generator as a system of small changes.

Whatever a section's specification is, the state of the generator only changes in the ways
that `Change` lists. What holds along every run is then shown once for each kind of change,
and not by going through the program again.
-/

namespace ZenFs.Tectonic

open Library KeySet StringExpr

variable {e : Stop} {n : ℕ}

inductive Lookup : Op → Bytes → Call → Prop
  | update (key : Bytes) (val : Value) (hval : val.generated <+: val.written) :
      Lookup .update key (.update key val)
  | merge (key : Bytes) (val : Value) (hval : val.generated <+: val.written) :
      Lookup .merge key (.merge key val)
  | pointQuery (key : Bytes) : Lookup .pointQuery key (.pointQuery key)

inductive Absent : Op → Bytes → Call → Prop
  | pointDelete (key : Bytes) : Absent .pointDeleteEmpty key (.pointDelete key)
  | pointQuery (key : Bytes) : Absent .emptyPointQuery key (.pointQuery key)

inductive Passive : Option Op → Call → Prop
  | startStatFlush (b : BenchmarkerType) : Passive none (.startStatFlush b)
  | endStatFlush (name : Bytes) (b : BenchmarkerType) : Passive none (.endStatFlush name b)
  | rangeQuery (key1 key2 : Bytes) : Passive (some .rangeQuery) (.rangeQuery key1 key2)
  | rangeQueryCount (key : Bytes) (n : ℕ) (hn : n < 2 ^ 64) :
      Passive (some .rangeQuery) (.rangeQueryCount key n)
  | blindPointQuery (key : Bytes) : Passive (some .blindPointQuery) (.pointQuery key)
  | blindPointDelete (key : Bytes) : Passive (some .blindPointDelete) (.pointQuery key)
  | blindRangeQuery (key : Bytes) (n : ℕ) (hn : n < 2 ^ 64) :
      Passive (some .blindRangeQuery) (.rangeQueryCount key n)

/-- The operations that ask whether a key is contained. -/
inductive Checking : Op → Prop
  | uniqueInsert : Checking .uniqueInsert
  | pointDeleteEmpty : Checking .pointDeleteEmpty
  | emptyPointQuery : Checking .emptyPointQuery

/-- The ways in which the state changes; `occurs` says which kinds of operations have markers. -/
inductive Change {ρ S : Type} [KeySet S] (kind : KeySetKind) (occurs : Op → Prop) :
    Gen ρ S → Gen ρ S → Prop
  | draw (g : Gen ρ S) (rng : ρ) (pool : Option (List Bytes)) :
      Change kind occurs g (Gen.setRng rng (g.setPool pool))
  | renew (g : Gen ρ S) (hashes : Bytes → List ℕ) (hempty : stored g.keys = []) :
      Change kind occurs g (g.setKeys (new hashes))
  | sort (g : Gen ρ S) (keys : S) (hsort : sort g.keys = .ok keys) :
      Change kind occurs g (g.setKeys keys)
  | probe (g : Gen ρ S) (op : Op) (hop : Checking op) (hoccurs : occurs op) (key : Bytes)
      (answer : Bool) (hanswer : contains key g.keys = .ok answer) :
      Change kind occurs g (g.addProbe ⟨kind, key, answer, stored g.keys⟩)
  | passive (g : Gen ρ S) (op : Option Op) (call : Call) (hcall : Passive op call) :
      Change kind occurs g (g.addEvent op call g.keys)
  | first (g : Gen ρ S) (op : Op) (hop : op = .uniqueInsert ∨ op = .upsert)
      (hempty : isEmpty g.keys = true) (key : Bytes) (val : Value)
      (hval : val.generated <+: val.written) :
      Change kind occurs g (g.addEvent (some op) (.insert key val) (push key g.keys))
  | uniqueInsert (g : Gen ρ S) (hoccurs : occurs .uniqueInsert) (key : Bytes)
      (hanswer : contains key g.keys = .ok false) (val : Value)
      (hval : val.generated <+: val.written) :
      Change kind occurs g (g.addEvent (some .uniqueInsert) (.insert key val) (push key g.keys))
  | upsert (g : Gen ρ S) (hoccurs : occurs .upsert) (key : Bytes) (val : Value)
      (hval : val.generated <+: val.written) :
      Change kind occurs g (g.addEvent (some .upsert) (.insert key val) (push key g.keys))
  | lookup (g : Gen ρ S) (op : Op) (hoccurs : occurs op) (key : Bytes) (call : Call)
      (hcall : Lookup op key call) (idx : ℕ) (hget : get idx g.keys = .ok key) :
      Change kind occurs g (g.addEvent (some op) call g.keys)
  | absent (g : Gen ρ S) (op : Op) (hoccurs : occurs op) (key : Bytes) (call : Call)
      (hcall : Absent op key call) (hanswer : contains key g.keys = .ok false) :
      Change kind occurs g (g.addEvent (some op) call g.keys)
  | pointDelete (g : Gen ρ S) (hoccurs : occurs .pointDelete) (idx : ℕ) (key : Bytes) (keys : S)
      (hremove : remove idx g.keys = .ok (key, keys)) :
      Change kind occurs g (g.addEvent (some .pointDelete) (.pointDelete key) keys)
  | rangeDelete (g : Gen ρ S) (hoccurs : occurs .rangeDelete) (start stop : ℕ)
      (p : Bytes × Bytes) (keys : S) (hremove : removeRange start stop g.keys = .ok (p, keys)) :
      Change kind occurs g (g.addEvent (some .rangeDelete) (.rangeDelete p.1 p.2) keys)
  | rangeDeleteCount (g : Gen ρ S) (hoccurs : occurs .rangeDelete) (start stop : ℕ)
      (p : Bytes × Bytes) (keys : S) (hremove : removeRange start stop g.keys = .ok (p, keys))
      (key : Bytes) (hget : get start g.keys = .ok key) (n : ℕ) (hn : n < 2 ^ 64) :
      Change kind occurs g (g.addEvent (some .rangeDelete) (.rangeDeleteCount key n) keys)

def Supports (S : Type) [KeySet S] : Op → Prop
  | .uniqueInsert | .pointDeleteEmpty | .emptyPointQuery => Checks S
  | .update | .merge | .pointDelete | .rangeDelete | .pointQuery | .rangeQuery => Selects S
  | .upsert | .blindPointQuery | .blindPointDelete | .blindRangeQuery => True

section Rules

variable {ρ S α β : Type} [KeySet S]

/-- Where the program stops from `g`, or returns and then `Q` holds, it has got there by
changes; and it stops in an unsupported method only if `F` holds. -/
def Follows (kind : KeySetKind) (occurs : Op → Prop) (F : Prop) (m : Act (Gen ρ S) Stop α)
    (g : Gen ρ S) (Q : α → Gen ρ S → Prop) : Prop :=
  Meets m g (fun a t => Relation.ReflTransGen (Change kind occurs) g t ∧ Q a t)
    (fun e t => Relation.ReflTransGen (Change kind occurs) g t ∧
      ((∃ msg, e = .unsupported msg) → F))

namespace Follows

variable {kind : KeySetKind} {occurs : Op → Prop} {F : Prop} {g : Gen ρ S} {Q : α → Gen ρ S → Prop}

theorem ok {t : Gen ρ S} {a : α} {m : Act (Gen ρ S) Stop α} (h : Follows kind occurs F m g Q)
    (hm : m g = (.ok a, t)) : Q a t := by
  unfold Follows Meets at h
  rw [hm] at h
  exact h.2

theorem pure {a : α} (h : Q a g) :
    Follows kind occurs F (pure a) g Q := ⟨.refl, h⟩

theorem fail (he : ∀ msg, e ≠ .unsupported msg) :
    Follows kind occurs F (Act.fail e) g Q :=
  ⟨.refl, fun ⟨msg, h⟩ => absurd h (he msg)⟩

theorem read {f : Gen ρ S → α} (h : Q (f g) g) :
    Follows kind occurs F (Act.read f) g Q := ⟨.refl, h⟩

theorem modify {f : Gen ρ S → Gen ρ S} {Q : Unit → Gen ρ S → Prop}
    (hchange : Change kind occurs g (f g)) (h : Q () (f g)) :
    Follows kind occurs F (Act.modify f) g Q := ⟨.single hchange, h⟩

theorem mono {m : Act (Gen ρ S) Stop α} {R : α → Gen ρ S → Prop} (h : Follows kind occurs F m g Q)
    (hQ : ∀ a t, Q a t → R a t) :
    Follows kind occurs F m g R :=
  Meets.mono h (fun a t ht => ⟨ht.1, hQ a t ht.2⟩) fun _ _ ht => ht

theorem bind {m : Act (Gen ρ S) Stop α} {f : α → Act (Gen ρ S) Stop β}
    {R : β → Gen ρ S → Prop} (h : Follows kind occurs F m g Q)
    (hf : ∀ a t, Q a t → Follows kind occurs F (f a) t R) :
    Follows kind occurs F (m >>= f) g R := by
  refine Meets.bind (Meets.mono h ?_ fun _ _ ht => ht)
  intro a t ht
  exact .mono (hf a t ht.2) (fun _ _ hu => ⟨ht.1.trans hu.1, hu.2⟩)
    fun _ _ hu => ⟨ht.1.trans hu.1, hu.2⟩

theorem ask {f : S → Except Stop α} (hok : ∀ a, f g.keys = .ok a → Q a g)
    (hF : Unsupported (f g.keys) → F) :
    Follows kind occurs F (ask f) g Q := by
  unfold Follows Meets Tectonic.ask
  cases hf : f g.keys with
  | ok a => exact ⟨.refl, hok a hf⟩
  | error e =>
    refine ⟨.refl, ?_⟩
    rintro ⟨msg, rfl⟩
    exact hF ⟨msg, hf⟩

end Follows

def Quiet {σ : Type} (m : Act σ Stop α) : Prop := ∀ s msg, (m s).1 ≠ .error (.unsupported msg)

namespace Quiet

variable {σ : Type}

theorem pure (a : α) : Quiet (pure a : Act σ Stop α) := fun _ _ h => by cases h

theorem act (f : σ → α × σ) : Quiet (Act.act f : Act σ Stop α) := fun _ _ h => by cases h

theorem fail (he : ∀ msg, e ≠ .unsupported msg) : Quiet (Act.fail e : Act σ Stop α) := by
  intro s msg h
  cases h
  exact he msg rfl

theorem bind {m : Act σ Stop α} {f : α → Act σ Stop β} (h : Quiet m) (hf : ∀ a, Quiet (f a)) :
    Quiet (m >>= f) := by
  intro s msg hbind
  simp only [Bind.bind, Act.bind] at hbind
  have hm := h s
  split at hbind
  · next a t hrun => exact hf a t msg hbind
  · next e t hrun =>
    rw [hrun] at hm
    cases hbind
    exact hm msg rfl

theorem ite {m n : Act σ Stop α} {c : Prop} [Decidable c] (hm : Quiet m) (hn : Quiet n) :
    Quiet (if c then m else n) := by
  split
  · exact hm
  · exact hn

end Quiet

theorem Follows.draw {kind : KeySetKind} {occurs : Op → Prop} {F : Prop} {g : Gen ρ S}
    {m : Act ρ Stop α} (hm : Quiet m) {Q : α → Prop} (hQ : ∀ r a, (m r).1 = .ok a → Q a) :
    Follows kind occurs F (draw m) g fun a t => Q a ∧ t.keys = g.keys := by
  have hchange : Change kind occurs g (Gen.setRng (m g.rng).2 g) := .draw g _ g.pool
  have hquiet := hm g.rng
  have hresult := hQ g.rng
  unfold Follows Meets Tectonic.draw Act.zoom
  cases hr : (m g.rng).1 with
  | ok a => exact ⟨.single hchange, hresult a hr, rfl⟩
  | error e =>
    refine ⟨.single hchange, ?_⟩
    rintro ⟨msg, rfl⟩
    exact absurd hr (hquiet msg)

end Rules

section Draws

variable {ρ : Type} (w : World ρ)

theorem quiet_stopIf {σ : Type} {condition : Prop} [Decidable condition]
    (he : ∀ msg, e ≠ .unsupported msg) : Quiet (stopIf condition e : Act σ Stop Unit) :=
  .ite (.fail he) (.pure _)

theorem quiet_evaluate (n : NumberExpr) : Quiet (n.evaluate w) := by
  cases n with
  | constant val => exact .pure val
  | sampled dist => exact .act _

theorem quiet_evaluateIndex (d : Distribution) (len : ℕ) : Quiet (d.evaluateIndex w len) := by
  unfold Distribution.evaluateIndex
  split
  · cases d <;> first | exact .act _ | exact .fail fun _ h => by cases h
  · exact .act _

theorem quiet_usub (a b : ℕ) : Quiet (usub w a b) :=
  .ite (.pure _) (.ite (.fail fun _ h => by cases h) (.pure _))

theorem quiet_uadd (a b : ℕ) : Quiet (uadd w a b) :=
  .ite (.pure _) (.ite (.fail fun _ h => by cases h) (.pure _))

theorem quiet_usum (ns : List ℕ) : Quiet (usum w ns) := by
  induction ns with
  | nil => exact .pure _
  | cons n rest ih => exact .bind ih fun total => quiet_uadd w n total

theorem quiet_sampleString (cs : CharacterSet) : Quiet (sampleString w cs n) := by
  induction n with
  | zero => exact .pure _
  | succ n ih => exact .bind (.act _) fun _ => .bind ih fun _ => .pure _

theorem quiet_uniformString (len : NumberExpr) (own parent : Option CharacterSet) :
    Quiet (uniformString w len own parent) :=
  .bind (quiet_evaluate w len) fun _ => quiet_sampleString w _

theorem quiet_hotRangeString (len : ℕ) (probability : ℚ) (hotRanges : List Bytes) :
    Quiet (hotRangeString w len probability hotRanges) := by
  refine .bind (quiet_stopIf fun _ h => by cases h) fun _ => .bind (.act _) fun _ => ?_
  refine .ite (.ite (.fail fun _ h => by cases h) ?_) (quiet_sampleString w _)
  refine .bind (.act _) fun i => ?_
  cases hotRanges[i]? with
  | some s => exact .pure s
  | none => exact .fail fun _ h => by cases h

mutual

theorem quiet_writeAll (parent : Option CharacterSet) :
    (e : StringExpr) → Quiet (e.writeAll w parent)
  | .constant val => by
    unfold writeAll
    exact .pure val
  | .uniform len cs => by
    unfold writeAll
    exact quiet_uniformString w len cs parent
  | .weighted items _ => by
    unfold writeAll
    exact .bind (.act _) fun i => quiet_writeNth i items
  | .segmented separator segments => by
    unfold writeAll
    exact quiet_writeSegments separator segments
  | .hotRange len probability hotRanges => by
    unfold writeAll
    exact quiet_hotRangeString w len probability hotRanges

theorem quiet_writeNth (i : ℕ) : (items : List StringExpr) → Quiet (writeNth w i items)
  | [] => by
    unfold writeNth
    exact .fail fun _ h => by cases h
  | item :: rest => by
    unfold writeNth
    cases i with
    | zero => exact quiet_writeAll none item
    | succ i => exact quiet_writeNth i rest

theorem quiet_writeSegments (separator : Bytes) :
    (segments : List StringExpr) → Quiet (writeSegments w separator segments)
  | [] => by
    unfold writeSegments
    exact .pure _
  | segment :: rest => by
    unfold writeSegments
    exact .bind (quiet_writeAll none segment) fun _ =>
      .bind (quiet_writeSegments separator rest) fun _ => .pure _

end

theorem quiet_generate (parent : Option CharacterSet) (e : StringExpr) :
    Quiet (e.generate w parent) := by
  intro r msg h
  obtain ⟨-, ⟨s, sep, hs, -⟩ | ⟨e', he, hw⟩⟩ := generate_begins w parent e r
  · rw [hs] at h
    cases h
  · rw [he] at h
    cases h
    exact quiet_writeAll w parent e r msg hw

theorem quiet_value (parent : Option CharacterSet) (e : StringExpr) : Quiet (e.value w parent) := by
  intro r msg h
  have hwrite := quiet_writeAll w parent e r msg
  have hgen := quiet_generate w parent e r msg
  unfold value at h
  split at h
  · cases h
  · next hw hg => exact hgen (hg.trans (by cases h; rfl))
  · next hw =>
    cases h
    exact hwrite (by rw [hw])

theorem value_prefix {parent : Option CharacterSet} {e : StringExpr} {r : ρ} {val : Value}
    (h : (e.value w parent r).1 = .ok val) : val.generated <+: val.written := by
  have hbegins := (generate_begins w parent e r).2
  unfold value at h
  split at h
  · next written t generated hw hg =>
    cases h
    obtain ⟨s, sep, hs, hsep⟩ | ⟨e', he, -⟩ := hbegins
    · rw [hg] at hs
      rw [hw] at hsep
      cases hs
      cases hsep
      exact List.prefix_append _ _
    · rw [hg] at he
      cases he
  · cases h
  · cases h

theorem quiet_expect {σ α : Type} {msg : String} {a : Option α} :
    Quiet (expect msg a : Act σ Stop α) := by
  cases a with
  | some a => exact .pure a
  | none => exact .fail fun _ h => by cases h

theorem quiet_getRangeLength (selectivity scanLength : Option NumberExpr) (n : ℕ) :
    Quiet (getRangeLength w selectivity scanLength n) := by
  cases selectivity with
  | some sel => exact .bind (quiet_evaluate w sel) fun _ => .pure _
  | none => exact .bind (quiet_expect) fun n => .bind (quiet_evaluate w n) fun _ => .pure _

theorem getRangeLength_lt {r : ρ} {selectivity scanLength : Option NumberExpr} {numKeys : ℕ}
    (h : (getRangeLength w selectivity scanLength numKeys r).1 = .ok n) : n < 2 ^ 64 := by
  have hlt : ∀ x, asUsize x < 2 ^ 64 := by
    unfold asUsize
    omega
  have hbind : ∀ (e : NumberExpr) (f : ℚ → ℚ) (r : ρ),
      ((e.evaluate w >>= fun x => pure (asUsize (f x)) : Act ρ Stop ℕ) r).1 = .ok n →
        n < 2 ^ 64 := by
    intro e f r he
    obtain ⟨_, _, -, ⟨⟩⟩ := Act.exists_of_bind (Prod.ext he rfl)
    exact hlt _
  cases selectivity with
  | some sel => exact hbind sel (fun x => asF64 (x * asF64 numKeys)) r h
  | none => cases scanLength with
    | some e => exact hbind e id r h
    | none => cases h

theorem quiet_evalCount (n : Option NumberExpr) : Quiet (evalCount w n) := by
  cases n with
  | none => exact .pure 0
  | some n => exact .bind (quiet_evaluate w n) fun _ => .pure _

theorem quiet_evalCounts (group : WorkloadSpecGroup) (ops : List Op) :
    Quiet (evalCounts w group ops) := by
  induction ops with
  | nil => exact .pure _
  | cons op rest ih => exact .bind (quiet_evalCount w _) fun _ => .bind ih fun _ => .pure _

theorem quiet_groupCounts (op : Op) (groups : List WorkloadSpecGroup) :
    Quiet (groupCounts w op groups) := by
  induction groups with
  | nil => exact .pure _
  | cons group rest ih => exact .bind (quiet_evalCount w _) fun _ => .bind ih fun _ => .pure _

theorem quiet_displace (sorted : Sorted) (n : ℕ) (pool : List Bytes) :
    Quiet (displace w sorted n pool) := by
  induction n generalizing pool with
  | zero => exact .pure _
  | succ n ih =>
    refine .bind (quiet_stopIf fun _ h => by cases h) fun _ => .bind (.act _) fun _ => ?_
    exact .bind (quiet_evaluate w _) fun _ => ih _

end Draws

end ZenFs.Tectonic
