import Mathlib.Data.List.Chain

/-!
Programs over a state that publish some of the states they pass through.

A program returns the list of states it published, in order, and its result with
the final state, or no result when it never returns. `Runs` is the program logic:
every published state follows from the one before by a step of a relation, and
the result satisfies a postcondition. What a step keeps then holds at all of them.
-/

namespace ZenFs.Library

variable {σ α β γ : Type}
variable {R : α → σ → Prop}

/-- What a program did: the states it published and how it ended. -/
structure Outcome (σ α : Type) where
  trail : List σ
  result : Option (α × σ)

/-- A program over states `σ` with results in `α`. -/
def Prog (σ α : Type) := σ → Outcome σ α

variable {m : Prog σ α} {a : α}

namespace Prog

protected def pure (a : α) : Prog σ α := fun s => ⟨[], some (a, s)⟩

protected def bind (m : Prog σ α) (f : α → Prog σ β) : Prog σ β := fun s =>
  match (m s).result with
  | none => ⟨(m s).trail, none⟩
  | some (a, t) => ⟨(m s).trail ++ (f a t).trail, (f a t).result⟩

instance : Monad (Prog σ) where
  pure := Prog.pure
  bind := Prog.bind

def read (f : σ → α) : Prog σ α := fun s => ⟨[], some (f s, s)⟩

def modify (f : σ → σ) : Prog σ Unit := fun s => ⟨[], some ((), f s)⟩

def act (f : σ → α × σ) : Prog σ α := fun s => ⟨[], some (f s)⟩

def emit : Prog σ Unit := fun s => ⟨[s], some ((), s)⟩

def stuck : Prog σ α := fun _ => ⟨[], none⟩

section Results

variable (s : σ)

@[simp] theorem pure_result (a : α) : ((pure a : Prog σ α) s).result = some (a, s) := rfl

@[simp] theorem pure_trail (a : α) : ((pure a : Prog σ α) s).trail = [] := rfl

@[simp] theorem read_result (f : σ → α) : (read f s).result = some (f s, s) := rfl

@[simp] theorem read_trail (f : σ → α) : (read f s).trail = [] := rfl

@[simp] theorem modify_result (f : σ → σ) : (modify f s).result = some ((), f s) := rfl

@[simp] theorem modify_trail (f : σ → σ) : (modify f s).trail = [] := rfl

@[simp] theorem act_result (f : σ → α × σ) : (act f s).result = some (f s) := rfl

@[simp] theorem act_trail (f : σ → α × σ) : (act f s).trail = [] := rfl

@[simp] theorem emit_result : ((emit : Prog σ Unit) s).result = some ((), s) := rfl

@[simp] theorem emit_trail : ((emit : Prog σ Unit) s).trail = [s] := rfl

@[simp] theorem stuck_result : ((stuck : Prog σ α) s).result = none := rfl

@[simp] theorem stuck_trail : ((stuck : Prog σ α) s).trail = [] := rfl

theorem bind_apply (m : Prog σ α) (f : α → Prog σ β) :
    (m >>= f) s = Prog.bind m f s := rfl

theorem bind_result (m : Prog σ α) (f : α → Prog σ β) :
    ((m >>= f) s).result = (m s).result.bind (fun p => (f p.1 p.2).result) := by
  rw [bind_apply, Prog.bind]
  split <;> simp [*]

theorem bind_trail (m : Prog σ α) (f : α → Prog σ β) :
    ((m >>= f) s).trail =
      (m s).trail ++ ((m s).result.elim [] fun p => (f p.1 p.2).trail) := by
  rw [bind_apply, Prog.bind]
  split <;> simp [*]

theorem bind_of_result {t : σ} (f : α → Prog σ β)
    (h : (m s).result = some (a, t)) :
    ((m >>= f) s).result = (f a t).result := by
  simp [bind_result, h]

end Results

theorem ext_apply {n : Prog σ α} (h : ∀ s, (m s).trail = (n s).trail ∧
    (m s).result = (n s).result) : m = n := by
  funext s
  obtain ⟨ht, hr⟩ := h s
  cases hm : m s
  simp_all

private theorem map_id_eq (m : Prog σ α) : id <$> m = m := by
  refine ext_apply fun s => ?_
  cases h : (m s).result <;> simp [Functor.map, Prog.bind, Prog.pure, h]

private theorem pure_bind_eq (a : α) (f : α → Prog σ β) : pure a >>= f = f a :=
  ext_apply fun s => by simp [bind_result, bind_trail]

private theorem bind_assoc_eq (m : Prog σ α) (f : α → Prog σ β) (g : β → Prog σ γ) :
    m >>= f >>= g = m >>= fun a => f a >>= g := by
  refine ext_apply fun s => ?_
  cases h : (m s).result <;> simp [bind_result, bind_trail, h]

instance : LawfulMonad (Prog σ) :=
  LawfulMonad.mk' (Prog σ) map_id_eq pure_bind_eq bind_assoc_eq

end Prog

/-- If the program returns from `s`, then `Q` holds of its result and the final state. -/
def Ends (m : Prog σ α) (s : σ) (Q : α → σ → Prop) : Prop :=
  ∀ a t, (m s).result = some (a, t) → Q a t

variable {f : α → Prog σ β}

namespace Ends

variable {s : σ} {Q : α → σ → Prop}

theorem pure (h : Q a s) : Ends (pure a) s Q := by
  rintro _ _ ⟨⟩
  exact h

theorem read {f : σ → α} (h : Q (f s) s) : Ends (Prog.read f) s Q := by
  rintro _ _ ⟨⟩
  exact h

theorem emit {Q : Unit → σ → Prop} (h : Q () s) : Ends Prog.emit s Q := by
  rintro _ _ ⟨⟩
  exact h

theorem stuck : Ends Prog.stuck s Q := by
  rintro _ _ ⟨⟩

theorem modify {f : σ → σ} {Q : Unit → σ → Prop} (h : Q () (f s)) : Ends (Prog.modify f) s Q := by
  rintro _ _ ⟨⟩
  exact h

theorem act {f : σ → α × σ} (h : Q (f s).1 (f s).2) : Ends (Prog.act f) s Q := by
  intro a t hr
  rwa [Option.some.inj hr] at h

theorem mono (hm : Ends m s Q) (h : ∀ a t, Q a t → R a t) :
    Ends m s R := fun a t hr => h a t (hm a t hr)

theorem bind {R : β → σ → Prop}
    (hm : Ends m s fun a t => Ends (f a) t R) : Ends (m >>= f) s R := by
  intro b u hr
  rw [Prog.bind_result] at hr
  obtain ⟨⟨a, t⟩, hat, hbu⟩ := Option.bind_eq_some_iff.mp hr
  exact hm a t hat b u hbu

end Ends

/-- The program returns from `s`, with a result and a final state that satisfy `Q`. -/
def Returns (m : Prog σ α) (s : σ) (Q : α → σ → Prop) : Prop :=
  ∃ a t, (m s).result = some (a, t) ∧ Q a t

namespace Returns

variable {s : σ} {Q : α → σ → Prop}

theorem pure (h : Q a s) : Returns (pure a) s Q := ⟨a, s, rfl, h⟩

theorem read {f : σ → α} (h : Q (f s) s) : Returns (Prog.read f) s Q := ⟨f s, s, rfl, h⟩

theorem emit {Q : Unit → σ → Prop} (h : Q () s) : Returns Prog.emit s Q := ⟨(), s, rfl, h⟩

theorem modify {f : σ → σ} {Q : Unit → σ → Prop} (h : Q () (f s)) :
    Returns (Prog.modify f) s Q := ⟨(), f s, rfl, h⟩

theorem act {f : σ → α × σ} (h : Q (f s).1 (f s).2) : Returns (Prog.act f) s Q :=
  ⟨(f s).1, (f s).2, rfl, h⟩

theorem mono (hm : Returns m s Q)
    (h : ∀ a t, Q a t → R a t) : Returns m s R := by
  obtain ⟨a, t, hr, hq⟩ := hm
  exact ⟨a, t, hr, h a t hq⟩

theorem bind {R : β → σ → Prop}
    (hm : Returns m s fun a t => Returns (f a) t R) : Returns (m >>= f) s R := by
  obtain ⟨a, t, hat, b, u, hbu, hR⟩ := hm
  exact ⟨b, u, by rw [Prog.bind_of_result _ _ hat, hbu], hR⟩

theorem iff_of {C : Prop} (hm : Returns m s Q)
    (h : ∀ a t, Q a t → (R a t ↔ C)) : Returns m s R ↔ C := by
  obtain ⟨a, t, hr, hq⟩ := hm
  constructor
  · rintro ⟨b, u, hr', hR⟩
    obtain ⟨rfl, rfl⟩ : a = b ∧ t = u := by simpa [hr] using hr'
    exact (h a t hq).mp hR
  · exact fun hC => ⟨a, t, hr, (h a t hq).mpr hC⟩

end Returns

/-- Wherever the program returns, it keeps `I`. -/
def Keeps (I : σ → Prop) (m : Prog σ α) : Prop := ∀ s, I s → Ends m s fun _ => I

namespace Keeps

variable {I : σ → Prop}

theorem pure (a : α) : Keeps I (pure a : Prog σ α) := fun _ hs => .pure hs

theorem read (f : σ → α) : Keeps I (Prog.read f) := fun _ hs => .read hs

theorem emit : Keeps I (Prog.emit : Prog σ Unit) := fun _ hs => .emit hs

theorem stuck : Keeps I (Prog.stuck : Prog σ α) := fun _ _ => .stuck

theorem modify {f : σ → σ} (hf : ∀ s, I s → I (f s)) : Keeps I (Prog.modify f) :=
  fun s hs => .modify (hf s hs)

theorem bind (hm : Keeps I m) (hf : ∀ a, Keeps I (f a)) :
    Keeps I (m >>= f) :=
  fun s hs => .bind ((hm s hs).mono fun a t ht => hf a t ht)

end Keeps

/-- The program returns from `s` with a result and a final state that satisfy `Q`, and
every state it publishes satisfies `P`. -/
def Settles (P : σ → Prop) (m : Prog σ α) (s : σ) (Q : α → σ → Prop) : Prop :=
  (∀ p ∈ (m s).trail, P p) ∧ Returns m s Q

namespace Settles

variable {P : σ → Prop} {s : σ} {Q : α → σ → Prop}

theorem pure (h : Q a s) : Settles P (pure a) s Q := ⟨by simp, .pure h⟩

theorem read {f : σ → α} (h : Q (f s) s) : Settles P (Prog.read f) s Q := ⟨by simp, .read h⟩

theorem modify {f : σ → σ} {Q : Unit → σ → Prop} (h : Q () (f s)) :
    Settles P (Prog.modify f) s Q := ⟨by simp, .modify h⟩

theorem act {f : σ → α × σ} (h : Q (f s).1 (f s).2) : Settles P (Prog.act f) s Q :=
  ⟨by simp, .act h⟩

theorem emit {Q : Unit → σ → Prop} (hP : P s) (h : Q () s) : Settles P Prog.emit s Q :=
  ⟨by simpa using hP, .emit h⟩

theorem mono (hm : Settles P m s Q)
    (h : ∀ a t, Q a t → R a t) : Settles P m s R := ⟨hm.1, hm.2.mono h⟩

theorem bind {R : β → σ → Prop}
    (hm : Settles P m s fun a t => Settles P (f a) t R) : Settles P (m >>= f) s R := by
  obtain ⟨hp, a, t, hr, hp', hR⟩ := hm
  constructor
  · intro p hpm
    rw [Prog.bind_trail, hr] at hpm
    exact (List.mem_append.mp hpm).elim (hp p) (hp' p)
  · exact .bind ⟨a, t, hr, hR⟩

theorem result {t : σ} (hm : Settles P m s Q)
    (hr : (m s).result = some (a, t)) : Q a t := by
  obtain ⟨-, b, u, hr', hq⟩ := hm
  obtain ⟨rfl, rfl⟩ : b = a ∧ u = t := by simpa [hr'] using hr
  exact hq

theorem trail {n : ℕ} {t : σ} (hm : Settles P m s Q)
    (ht : (m s).trail[n]? = some t) : P t := hm.1 t (List.mem_of_getElem? ht)

end Settles

end ZenFs.Library
