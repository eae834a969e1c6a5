import ZenFs.Tectonic.Workload

/-!
`scale_spec`: every count and every distribution of a workload multiplied by a factor.

What `scale` does to a value is to come to the distributions in it and to replace each of
them, so a type that can be scaled lists its distributions and can have them replaced.
-/

namespace ZenFs.Tectonic

variable {a b c : ℚ} {d : Distribution} {spec t : WorkloadSpec}

def Sampler.Accepted : Sampler → Prop
  | .uniform low high => low < high
  | .zipf n s => 1 ≤ n ∧ 0 ≤ s
  | .weibull scale shape | .pareto scale shape => 0 < scale ∧ 0 < shape
  | _ => True

instance : DecidablePred Sampler.Accepted := fun s => by
  cases s <;> unfold Sampler.Accepted <;> infer_instance

namespace Distribution

def sampler : Distribution → Sampler
  | uniform min max _ => .uniform min max
  | normal mean stdDev _ => .normal mean stdDev
  | exponential lambda _ => .exp lambda
  | beta a b _ => .beta a b
  | zipf n s _ | latest n s _ => .zipf n s
  | logNormal mean stdDev _ => .logNormal mean stdDev
  | poisson lambda _ => .poisson lambda
  | weibull scale shape _ => .weibull scale shape
  | pareto scale shape _ => .pareto scale shape

/-- As `try_from` makes it. -/
def Built (d : Distribution) : Prop := d.distr = d.sampler ∧ d.sampler.Accepted

instance : DecidablePred Built := fun _ => inferInstanceAs (Decidable (_ ∧ _))

/-- The `match` of `scale`: the parameters are multiplied and the sampler is built anew. -/
def rescaled (factor : ℚ) : Distribution → Distribution
  | uniform min max _ =>
    uniform (min * factor) (max * factor) (.uniform (min * factor) (max * factor))
  | zipf n s _ => zipf (n * factor) s (.zipf (n * factor) s)
  | latest n s _ => latest (n * factor) s (.zipf (n * factor) s)
  | weibull scale shape _ => weibull (scale * factor) shape (.weibull (scale * factor) shape)
  | pareto scale shape _ => pareto (scale * factor) shape (.pareto (scale * factor) shape)
  | d => d

/-- `scale`, where it does not panic: after the `match`, the `n` of a Zipf distribution is
multiplied once more. -/
def scaled (factor : ℚ) (d : Distribution) : Distribution :=
  match d.rescaled factor with
  | zipf n s distr => zipf (n * factor) s distr
  | d => d

/-- What `scale` panics with if the sampler cannot be built. -/
def scaleFailure : Distribution → String
  | zipf .. => "Failed to scale Zipf Distribution"
  | latest .. => "Failed to scale latest Distribution"
  | weibull .. => "Failed to scale Weibull Distribution"
  | pareto .. => "Failed to scale pareto Distribution"
  | _ => "Failed to scale uniform distribution"

/-- A Zipf distribution is not scaled at all, and `n` stays at 1 or above. -/
def Coheres (a b : ℚ) : Distribution → Prop
  | zipf .. => a = 1 ∧ b = 1
  | latest n _ _ => 1 ≤ n * a ∧ 1 ≤ n * (a * b)
  | _ => True

instance (a b : ℚ) : DecidablePred (Coheres a b) := fun d => by
  cases d <;> unfold Coheres <;> infer_instance

end Distribution

/-- The trait `Scalable`: the distributions that `scale` comes to, in its order; and the value
with all of them replaced and the constant counts multiplied. -/
class Scalable (α : Type) where
  distributions : α → List Distribution
  scaleWith : (Distribution → Distribution) → ℚ → α → α
  scaleWith_scaleWith : ∀ f g a b x, scaleWith g b (scaleWith f a x) = scaleWith (g ∘ f) (a * b) x
  distributions_scaleWith : ∀ f a x, distributions (scaleWith f a x) = (distributions x).map f
  scaleWith_eq_iff : ∀ f g a x,
    scaleWith f a x = scaleWith g a x ↔ ∀ d ∈ distributions x, f d = g d

open Scalable

variable {α β : Type}

instance : Scalable Distribution where
  distributions d := [d]
  scaleWith f _ d := f d
  scaleWith_scaleWith _ _ _ _ _ := rfl
  distributions_scaleWith _ _ _ := rfl
  scaleWith_eq_iff _ _ _ _ := by simp

instance : Scalable NumberExpr where
  distributions
    | .constant _ => []
    | .sampled dist => [dist]
  scaleWith f a
    | .constant val => .constant (val * a)
    | .sampled dist => .sampled (f dist)
  scaleWith_scaleWith _ _ _ _ x := by cases x <;> simp [mul_assoc]
  distributions_scaleWith _ _ x := by cases x <;> rfl
  scaleWith_eq_iff _ _ _ x := by cases x <;> simp

instance [Scalable α] : Scalable (Option α) where
  distributions x := x.toList.flatMap distributions
  scaleWith f a x := x.map (scaleWith f a)
  scaleWith_scaleWith _ _ _ _ x := by cases x <;> simp [scaleWith_scaleWith]
  distributions_scaleWith _ _ x := by cases x <;> simp [distributions_scaleWith]
  scaleWith_eq_iff _ _ _ x := by cases x <;> simp [scaleWith_eq_iff]

instance [Scalable α] : Scalable (List α) where
  distributions x := x.flatMap distributions
  scaleWith f a x := x.map (scaleWith f a)
  scaleWith_scaleWith _ _ _ _ x := by simp [scaleWith_scaleWith]
  distributions_scaleWith _ _ x := by
    simp [List.flatMap_map, List.map_flatMap, distributions_scaleWith]
  scaleWith_eq_iff _ _ _ x := by
    simp only [List.map_inj_left, scaleWith_eq_iff, List.mem_flatMap]
    grind

instance [Scalable α] [Scalable β] : Scalable (α × β) where
  distributions x := distributions x.1 ++ distributions x.2
  scaleWith f a x := (scaleWith f a x.1, scaleWith f a x.2)
  scaleWith_scaleWith _ _ _ _ _ := by simp [scaleWith_scaleWith]
  distributions_scaleWith _ _ _ := by simp [distributions_scaleWith]
  scaleWith_eq_iff _ _ _ _ := by simp [scaleWith_eq_iff, or_imp, forall_and]

/-- The part of a value that is scaled can be read and replaced. -/
abbrev Scalable.onPart [Scalable β] (get : α → β) (set : β → α → α)
    (get_set : ∀ p x, get (set p x) = p := by intros; rfl)
    (set_set : ∀ p q x, set p (set q x) = set p x := by intros; rfl) : Scalable α where
  distributions x := distributions (get x)
  scaleWith f a x := set (scaleWith f a (get x)) x
  scaleWith_scaleWith _ _ _ _ _ := by rw [get_set, set_set, scaleWith_scaleWith]
  distributions_scaleWith _ _ _ := by rw [get_set, distributions_scaleWith]
  scaleWith_eq_iff f g a x := by
    rw [← scaleWith_eq_iff f g a]
    exact ⟨fun h => by rw [← get_set (scaleWith f a _) x, h, get_set], fun h => by rw [h]⟩

instance : Scalable Inserts :=
  .onPart Inserts.opCount (fun p x => { x with opCount := p })

instance : Scalable EmptyPointDeletes :=
  .onPart EmptyPointDeletes.opCount (fun p x => { x with opCount := p })

instance : Scalable BlindRangeQueries :=
  .onPart BlindRangeQueries.opCount (fun p x => { x with opCount := p })

instance : Scalable Updates :=
  .onPart (fun x => (x.opCount, x.selection))
    (fun p x => { x with opCount := p.1, selection := p.2 })

instance : Scalable PointDeletes :=
  .onPart (fun x => (x.opCount, x.selection))
    (fun p x => { x with opCount := p.1, selection := p.2 })

instance : Scalable RangeDeletes :=
  .onPart (fun x => (x.opCount, x.selection))
    (fun p x => { x with opCount := p.1, selection := p.2 })

instance : Scalable WorkloadSpecGroup :=
  .onPart (fun x => (x.uniqueInserts, x.inserts, x.updates, x.merges, x.pointDeletes,
      x.emptyPointDeletes, x.rangeDeletes, x.pointQueries, x.emptyPointQueries, x.rangeQueries,
      x.blindPointQueries, x.blindPointDeletes, x.blindRangeQueries))
    (fun (p₁, p₂, p₃, p₄, p₅, p₆, p₇, p₈, p₉, p₁₀, p₁₁, p₁₂, p₁₃) x =>
      { x with
        uniqueInserts := p₁, inserts := p₂, updates := p₃, merges := p₄, pointDeletes := p₅
        emptyPointDeletes := p₆, rangeDeletes := p₇, pointQueries := p₈, emptyPointQueries := p₉
        rangeQueries := p₁₀, blindPointQueries := p₁₁, blindPointDeletes := p₁₂
        blindRangeQueries := p₁₃ })

instance : Scalable DefaultDistributions :=
  .onPart (fun x => (x.updatesSelection, x.mergesSelection, x.pointDeletesSelection,
      x.rangeQueriesSelection, x.pointQueriesSelection, x.rangeDeletesSelection))
    (fun (p₁, p₂, p₃, p₄, p₅, p₆) _ => ⟨p₁, p₂, p₃, p₄, p₆, p₅⟩)

instance : Scalable DefaultDistributionsOptional :=
  .onPart (fun x => (x.updatesSelection, x.mergesSelection, x.pointDeletesSelection,
      x.rangeQueriesSelection, x.pointQueriesSelection, x.rangeDeletesSelection))
    (fun (p₁, p₂, p₃, p₄, p₅, p₆) _ => ⟨p₁, p₂, p₃, p₄, p₆, p₅⟩)

instance : Scalable WorkloadSpecSection :=
  .onPart (fun x => (x.defaultDistributions, x.groups))
    (fun p x => { x with defaultDistributions := p.1, groups := p.2 })

instance : Scalable WorkloadSpec :=
  .onPart (fun x => (x.defaultDistributions, x.sections))
    (fun p x => { x with defaultDistributions := p.1, sections := p.2 })

def scaleSpec (factor : ℚ) (spec : WorkloadSpec) : Except Stop WorkloadSpec :=
  match (distributions spec).find? fun d => ¬ (d.rescaled factor).distr.Accepted with
  | some d => .error (.panic d.scaleFailure)
  | none => .ok (scaleWith (Distribution.scaled factor) factor spec)

theorem scaleSpec_eq_ok_iff : scaleSpec c spec = .ok t ↔
    (∀ d ∈ distributions spec, (d.rescaled c).distr.Accepted) ∧
      scaleWith (Distribution.scaled c) c spec = t := by
  unfold scaleSpec
  split
  · next d hd =>
    have hnot := List.find?_some hd
    simp only [decide_eq_true_eq] at hnot
    simp only [reduceCtorEq, false_iff, not_and]
    exact fun hall => absurd (hall d (List.mem_of_find?_eq_some hd)) hnot
  · next hnone => simpa using fun _ => hnone

/-- Scaling by `a` and then by `b` is scaling by `a * b`, and what is scaled is multiplied once
and stored as its sampler was built. -/
structure Coherent (a b : ℚ) (spec : WorkloadSpec) : Prop where
  twice : ∃ t u, scaleSpec a spec = .ok t ∧ scaleSpec b t = .ok u ∧ scaleSpec (a * b) spec = .ok u
  once : ∀ d ∈ distributions spec, ∀ c ∈ [a, a * b],
    (d.scaled c).distr = (d.scaled c).sampler ∧ d.scaled c = d.rescaled c

theorem Distribution.coheres_iff (hd : d.Built) (ha : 0 < a) (hb : 0 < b) :
    Coheres a b d ↔ (d.rescaled a).distr.Accepted ∧ ((d.scaled a).rescaled b).distr.Accepted ∧
      (d.rescaled (a * b)).distr.Accepted ∧ (d.scaled a).scaled b = d.scaled (a * b) ∧
        ∀ c ∈ [a, a * b],
          (d.scaled c).distr = (d.scaled c).sampler ∧ d.scaled c = d.rescaled c := by
  have hab := mul_pos ha hb
  cases d with
  | uniform min max distr =>
    have hlt : min < max := hd.2
    simp [Coheres, rescaled, scaled, Sampler.Accepted, Distribution.distr, sampler, mul_assoc,
      ha, hab, hlt]
  | zipf n s distr =>
    have hn : 0 < n := zero_lt_one.trans_le hd.2.1
    have hone : ∀ c, 0 < c → (zipf n s distr).scaled c = (zipf n s distr).rescaled c → c = 1 := by
      intro c hc h
      have hmul : n * c * c = n * c := (zipf.inj h).1
      exact mul_left_cancel₀ (mul_pos hn hc).ne' (hmul.trans (mul_one _).symm)
    constructor
    · rintro ⟨rfl, rfl⟩
      simpa [rescaled, scaled, Sampler.Accepted, Distribution.distr, sampler] using hd.2
    · rintro ⟨-, -, -, -, hall⟩
      obtain rfl := hone a ha (hall a (by simp)).2
      exact ⟨rfl, by simpa using hone _ hab (hall (1 * b) (by simp)).2⟩
  | latest n s distr =>
    have hs : 0 ≤ s := hd.2.2
    simp [Coheres, rescaled, scaled, Sampler.Accepted, Distribution.distr, sampler, mul_assoc, hs]
  | weibull scale shape distr | pareto scale shape distr =>
    obtain ⟨hscale, hshape⟩ : 0 < scale ∧ 0 < shape := hd.2
    simp [Coheres, rescaled, scaled, Sampler.Accepted, Distribution.distr, sampler, mul_assoc,
      ha, hab, hscale, hshape]
  | _ => simp_all [Coheres, rescaled, scaled, Built, Sampler.Accepted, Distribution.distr, sampler]

/-- The scaling of a workload is coherent exactly if it scales no Zipf distribution by a factor
other than 1 and leaves the `n` of every latest distribution at 1 or above. -/
theorem scaling_coherent_iff (spec : WorkloadSpec) (hbuilt : ∀ d ∈ distributions spec, d.Built)
    (ha : 0 < a) (hb : 0 < b) :
    Coherent a b spec ↔ ∀ d ∈ distributions spec, d.Coheres a b := by
  have hsame : scaleWith (Distribution.scaled b) b (scaleWith (Distribution.scaled a) a spec) =
      scaleWith (Distribution.scaled (a * b)) (a * b) spec ↔
        ∀ d ∈ distributions spec, (d.scaled a).scaled b = d.scaled (a * b) := by
    rw [scaleWith_scaleWith, scaleWith_eq_iff]
    rfl
  have htwice : (∃ t u, scaleSpec a spec = .ok t ∧ scaleSpec b t = .ok u ∧
      scaleSpec (a * b) spec = .ok u) ↔ ∀ d ∈ distributions spec,
        (d.rescaled a).distr.Accepted ∧ ((d.scaled a).rescaled b).distr.Accepted ∧
          (d.rescaled (a * b)).distr.Accepted ∧ (d.scaled a).scaled b = d.scaled (a * b) := by
    simp only [scaleSpec_eq_ok_iff, forall_and]
    constructor
    · rintro ⟨_, _, ⟨ha, rfl⟩, ⟨hb, rfl⟩, hab, heq⟩
      rw [distributions_scaleWith, List.forall_mem_map] at hb
      exact ⟨ha, hb, hab, hsame.mp heq.symm⟩
    · rintro ⟨ha, hb, hab, heq⟩
      refine ⟨_, _, ⟨ha, rfl⟩, ⟨?_, rfl⟩, hab, (hsame.mpr heq).symm⟩
      rwa [distributions_scaleWith, List.forall_mem_map]
  rw [show Coherent a b spec ↔ _ ∧ _ from ⟨fun h => ⟨h.1, h.2⟩, fun h => ⟨h.1, h.2⟩⟩, htwice,
    ← forall₂_and]
  refine forall₂_congr fun d hd => ?_
  rw [Distribution.coheres_iff (hbuilt d hd) ha hb]
  tauto

def queryingBy (d : Distribution) : WorkloadSpec where
  sections := [{ groups := [{ pointQueries := some ⟨.constant 4, some d⟩ }] }]

theorem scaling_coherent_latest : Coherent 2 (1 / 4) (queryingBy (.latest 4 1 (.zipf 4 1))) :=
  (scaling_coherent_iff _ (by decide +kernel) (by norm_num) (by norm_num)).mpr (by decide +kernel)

/-- The Zipf distribution of 4 values, scaled by 2, stores 16 and draws from 8 values. -/
theorem zipf_scaled_twice :
    (scaleSpec 2 (queryingBy (.zipf 4 1 (.zipf 4 1)))).map distributions =
      .ok (List.replicate 6 (.uniform 0 2 (.uniform 0 2)) ++ [.zipf 16 1 (.zipf 8 1)]) := by
  decide +kernel

end ZenFs.Tectonic
