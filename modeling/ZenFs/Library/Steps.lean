import Mathlib.Logic.Relation

/-!
Systems that take one labelled step after another.

A system is a partial step function on states; a label says who moves and how. A
condition on the steps singles out the runs in which every step meets it.
-/

namespace ZenFs.Library

variable {σ α : Type}

/-- One step of the system under the condition `ok` on the state and the label. -/
def Step (step : σ → α → Option σ) (ok : σ → α → Prop) (s t : σ) : Prop :=
  ∃ a, ok s a ∧ step s a = some t

/-- The states a run from `s` passes when all its steps meet `ok`. -/
def Reaches (step : σ → α → Option σ) (ok : σ → α → Prop) : σ → σ → Prop :=
  Relation.ReflTransGen (Step step ok)

def anyStep : σ → α → Prop := fun _ _ => True

instance (s : σ) (a : α) : Decidable (anyStep s a) := isTrue trivial

@[simp] theorem anyStep_apply (s : σ) (a : α) : anyStep s a := trivial

/-- Take the steps of a list, as long as they meet the condition. -/
def runSteps (step : σ → α → Option σ) (ok : σ → α → Prop) [∀ s a, Decidable (ok s a)] :
    σ → List α → Option σ
  | s, [] => some s
  | s, a :: rest =>
    if ok s a then (step s a).bind fun t => runSteps step ok t rest else none

namespace Reaches

variable {step : σ → α → Option σ} {ok : σ → α → Prop} {s t u : σ}

@[refl] theorem refl (s : σ) : Reaches step ok s s := Relation.ReflTransGen.refl

theorem trans (h : Reaches step ok s t) (k : Reaches step ok t u) : Reaches step ok s u :=
  Relation.ReflTransGen.trans h k

theorem single {a : α} (hok : ok s a) (h : step s a = some t) : Reaches step ok s t :=
  Relation.ReflTransGen.single ⟨a, hok, h⟩

theorem keeps {I : σ → Prop} (h : Reaches step ok s t) (hs : I s)
    (hstep : ∀ {a : α} {v w : σ}, I v → ok v a → step v a = some w → I w) : I t := by
  induction h with
  | refl => exact hs
  | tail _ hst ih =>
    obtain ⟨a, hok, ha⟩ := hst
    exact hstep ih hok ha

theorem of_runSteps [∀ s a, Decidable (ok s a)] {l : List α}
    (h : runSteps step ok s l = some t) : Reaches step ok s t := by
  induction l generalizing s with
  | nil =>
    cases h
    exact refl _
  | cons a rest ih =>
    simp only [runSteps] at h
    split at h
    · next hok =>
      obtain ⟨v, hv, hr⟩ := Option.bind_eq_some_iff.mp h
      exact (single hok hv).trans (ih hr)
    · cases h

theorem of_any [∀ s a, Decidable (ok s a)] {P : σ → Prop} [∀ t, Decidable (P t)] (l : List α)
    (h : ((runSteps step ok s l).any fun t => P t) = true) : ∃ t, Reaches step ok s t ∧ P t := by
  obtain ⟨t, ht, hp⟩ := Option.any_eq_true _ _ |>.mp h
  exact ⟨t, of_runSteps ht, of_decide_eq_true hp⟩

theorem of_any_imp [∀ s a, Decidable (ok s a)] {P Q : σ → Prop} [∀ t, Decidable (P t)]
    (l : List α) (h : ((runSteps step ok s l).any fun t => P t) = true)
    (hq : ∀ t, Reaches step ok s t → P t → Q t) : ∃ t, Reaches step ok s t ∧ Q t := by
  obtain ⟨t, ht, hp⟩ := of_any l h
  exact ⟨t, ht, hq t ht hp⟩

theorem of_any_labels [∀ s a, Decidable (ok s a)] {P : σ → Prop} [∀ t, Decidable (P t)]
    {l : List α} {ok' : σ → α → Prop} (h : ((runSteps step ok s l).any fun t => P t) = true)
    (hq : ∀ a ∈ l, ∀ s, ok s a → ok' s a) : ∃ t, Reaches step ok' s t ∧ P t := by
  induction l generalizing s with
  | nil => exact ⟨s, refl s, of_decide_eq_true h⟩
  | cons a rest ih =>
    simp only [runSteps] at h
    split at h
    · next hok =>
      cases hv : step s a with
      | none => simp [hv] at h
      | some v =>
        rw [hv] at h
        obtain ⟨t, ht, hp⟩ := ih h fun b hb => hq b (List.mem_cons_of_mem _ hb)
        exact ⟨t, (single (hq a List.mem_cons_self s hok) hv).trans ht, hp⟩
    · cases h

end Reaches

end ZenFs.Library
