import Mathlib.Order.Notation

/-!
Programs over a state that return a value or stop with an error. The state reached is kept
in either case, so that what a program did before it stopped can be spoken of.
-/

namespace ZenFs.Library

variable {σ τ ε α β : Type}

/-- A program over states `σ` with results in `α` and errors in `ε`. -/
def Act (σ ε α : Type) := σ → Except ε α × σ

namespace Act

protected def pure (a : α) : Act σ ε α := fun s => (.ok a, s)

protected def bind (m : Act σ ε α) (f : α → Act σ ε β) : Act σ ε β := fun s =>
  match m s with
  | (.ok a, t) => f a t
  | (.error e, t) => (.error e, t)

instance : Monad (Act σ ε) where
  pure := Act.pure
  bind := Act.bind

def fail (e : ε) : Act σ ε α := fun s => (.error e, s)

def read (f : σ → α) : Act σ ε α := fun s => (.ok (f s), s)

def modify (f : σ → σ) : Act σ ε Unit := fun s => (.ok (), f s)

def act (f : σ → α × σ) : Act σ ε α := fun s => (.ok (f s).1, (f s).2)

def zoom (view : τ → σ) (put : σ → τ → τ) (m : Act σ ε α) : Act τ ε α := fun s =>
  ((m (view s)).1, put (m (view s)).2 s)

theorem exists_of_bind {s : σ} {u : σ} {b : β} {m : Act σ ε α} {f : α → Act σ ε β}
    (h : (m >>= f) s = (.ok b, u)) :
    ∃ a t, m s = (.ok a, t) ∧ f a t = (.ok b, u) := by
  simp only [Bind.bind, Act.bind] at h
  split at h
  · next a t hm => exact ⟨a, t, hm, h⟩
  · cases h

end Act

/-- Where `m` returns from `s`, the result and the state satisfy `Q`; where it stops, the
error and the state satisfy `E`. -/
def Meets (m : Act σ ε α) (s : σ) (Q : α → σ → Prop) (E : ε → σ → Prop) : Prop :=
  match m s with
  | (.ok a, t) => Q a t
  | (.error e, t) => E e t

namespace Meets

variable {s : σ} {Q : α → σ → Prop} {E : ε → σ → Prop}

theorem pure {a : α} (h : Q a s) : Meets (pure a) s Q E := h

variable {m : Act σ ε α}

theorem bind {f : α → Act σ ε β} {R : β → σ → Prop}
    (h : Meets m s (fun a t => Meets (f a) t R E) E) : Meets (m >>= f) s R E := by
  unfold Meets at h ⊢
  simp only [Bind.bind, Act.bind]
  split at h
  · next a t hm => simpa only [hm] using h
  · next e t hm => simpa only [hm] using h

theorem mono {R : α → σ → Prop} {F : ε → σ → Prop} (h : Meets m s Q E)
    (hQ : ∀ a t, Q a t → R a t) (hE : ∀ e t, E e t → F e t) : Meets m s R F := by
  unfold Meets at h ⊢
  split
  · next a t hm =>
    rw [hm] at h
    exact hQ a t h
  · next e t hm =>
    rw [hm] at h
    exact hE e t h

theorem zoom {view : τ → σ} {put : σ → τ → τ} {t : τ} {R : α → τ → Prop}
    {F : ε → τ → Prop}
    (h : Meets m (view t) (fun a s => R a (put s t)) (fun e s => F e (put s t))) :
    Meets (Act.zoom view put m) t R F := by
  unfold Meets at h ⊢
  unfold Act.zoom
  split at h
  · next a s hm => simpa only [hm] using h
  · next e s hm => simpa only [hm] using h

theorem state {I : σ → Prop} (h : Meets m s (fun _ => I) (fun _ => I)) :
    I (m s).2 := by
  unfold Meets at h
  split at h
  · next a t hm => rwa [hm]
  · next e t hm => rwa [hm]

end Meets

end ZenFs.Library
