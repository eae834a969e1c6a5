import Mathlib.Data.Option.Basic

/-!
Name tables in which one object may have several names.

An object lists its own names. In a linked table every name leads to an object that
lists it, all names an object lists lead to it, and objects are told apart by an
identifier. `swap` exchanges an object for another one with other names; creating,
removing, linking and renaming are all swaps.
-/

namespace ZenFs.Library.LinkTable

variable {N F G ι : Type}

def swap [DecidableEq N] (T : N → Option F) (old names : List N) (new : F) : N → Option F := fun n =>
  if n ∈ names then some new else if n ∈ old then none else T n

section Swap

variable [DecidableEq N] (T : N → Option F) (old names : List N) (new : F) {n : N}

theorem swap_of_mem (h : n ∈ names) : swap T old names new n = some new := if_pos h

theorem swap_of_mem_old (h : n ∉ names) (k : n ∈ old) : swap T old names new n = none := by
  simp [swap, h, k]

theorem swap_of_not_mem (h : n ∉ names) (k : n ∉ old) : swap T old names new n = T n := by
  simp [swap, h, k]

theorem swap_eq_some {f : F} : swap T old names new n = some f ↔
    (n ∈ names ∧ f = new) ∨ (n ∉ names ∧ n ∉ old ∧ T n = some f) := by
  by_cases h : n ∈ names
  · simp [swap_of_mem, h, eq_comm]
  · by_cases k : n ∈ old
    · simp [swap_of_mem_old, h, k]
    · simp [swap_of_not_mem, h, k]

end Swap

/-- Every name leads to an object that lists it, together with all names it lists, and
an identifier belongs to one object. -/
structure Linked (links : F → List N) (ident : F → ι) (T : N → Option F) : Prop where
  mem : ∀ {n f}, T n = some f → n ∈ links f
  all : ∀ {n f m}, T n = some f → m ∈ links f → T m = some f
  inj : ∀ {n m f g}, T n = some f → T m = some g → ident f = ident g → f = g

/-- The tables have the same names, and what they lead to is related. -/
def Agree (R : G → F → Prop) (S : N → Option G) (T : N → Option F) : Prop :=
  ∀ n, Option.Rel R (S n) (T n)

namespace Agree

variable {R : G → F → Prop} {S : N → Option G} {T : N → Option F}

theorem left (h : Agree R S T) {n : N} {g : G} (hg : S n = some g) :
    ∃ f, T n = some f ∧ R g f := by
  have hn := h n
  rw [hg] at hn
  generalize hT : T n = t at hn
  cases hn with
  | some r => exact ⟨_, rfl, r⟩

theorem right (h : Agree R S T) {n : N} {f : F} (hf : T n = some f) :
    ∃ g, S n = some g ∧ R g f := by
  have hn := h n
  rw [hf] at hn
  generalize hS : S n = t at hn
  cases hn with
  | some r => exact ⟨_, rfl, r⟩

theorem none_iff (h : Agree R S T) (n : N) : S n = none ↔ T n = none := by
  have hn := h n
  cases hS : S n <;> cases hT : T n <;> rw [hS, hT] at hn <;> simp <;> cases hn

theorem swap [DecidableEq N] (h : Agree R S T) (old names : List N) {g : G} {f : F} (hgf : R g f) :
    Agree R (swap S old names g) (LinkTable.swap T old names f) := by
  intro n
  by_cases hn : n ∈ names
  · rw [swap_of_mem _ _ _ _ hn, swap_of_mem _ _ _ _ hn]
    exact .some hgf
  · by_cases ho : n ∈ old
    · rw [swap_of_mem_old _ _ _ _ hn ho, swap_of_mem_old _ _ _ _ hn ho]
      exact .none
    · rw [swap_of_not_mem _ _ _ _ hn ho, swap_of_not_mem _ _ _ _ hn ho]
      exact h n

end Agree

end ZenFs.Library.LinkTable
