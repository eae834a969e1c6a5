import Mathlib.Logic.Function.Basic
import ZenFs.Library.Steps

/-!
Programs as trees of calls, and threads that run them over a shared state.

A task either returns or makes a call and goes on with its answer, so it can be run in
one go, or call by call between the calls of other threads. The same text serves for
sequential statements (`Ends`) and for statements about every interleaving (`Safe`).
-/

namespace ZenFs.Library

open Option Function

variable {Op : Type} {Res : Op → Type} {ι σ V α β γ : Type}
variable {o : Op} {R : β → σ → Prop} {exec : (o : Op) → σ → Option (Res o × σ)}

inductive Task (Res : Op → Type) (α : Type) : Type
  | ret (a : α)
  | call (o : Op) (k : Res o → Task Res α)

variable {m : Task Res α} {f : α → Task Res β} {a : α}

namespace Task

protected def bind : Task Res α → (α → Task Res β) → Task Res β
  | ret a, f => f a
  | call o k, f => call o fun r => (k r).bind f

instance : Monad (Task Res) where
  pure := ret
  bind := Task.bind

@[simp] theorem pure_eq (a : α) : (pure a : Task Res α) = ret a := rfl

@[simp] theorem ret_bind (a : α) (f : α → Task Res β) : ret a >>= f = f a := rfl

@[simp] theorem call_bind (o : Op) (k : Res o → Task Res α) (f : α → Task Res β) :
    call o k >>= f = call o fun r => k r >>= f := rfl

private theorem bind_assoc_eq (m : Task Res α) (f : α → Task Res β) (g : β → Task Res γ) :
    m >>= f >>= g = m >>= fun a => f a >>= g := by
  induction m with
  | ret a => rfl
  | call o k ih =>
    rw [call_bind, call_bind]
    congr 1
    funext r
    exact ih r

private theorem map_id_eq (m : Task Res α) : id <$> m = m := by
  change m >>= ret = m
  induction m with
  | ret a => rfl
  | call o k ih =>
    rw [call_bind]
    congr 1
    funext r
    exact ih r

instance : LawfulMonad (Task Res) :=
  LawfulMonad.mk' (Task Res) map_id_eq (fun _ _ => rfl) bind_assoc_eq

def op (o : Op) : Task Res (Res o) := call o ret

def next : Task Res α → Option Op
  | ret _ => none
  | call o _ => some o

/-- A judgement on tasks and what they return that is closed under sequencing. What is
proved of a program for every judgement can be used for sequential runs and for threads
alike. -/
structure Judgement {Op : Type} (Res : Op → Type) where
  Holds : {α : Type} → Task Res α → (α → Prop) → Prop
  ret : ∀ {α : Type} {a : α} {Q : α → Prop}, Q a → Holds (Task.ret a) Q
  bind : ∀ {α β : Type} {m : Task Res α} {f : α → Task Res β} {Q : α → Prop} {R : β → Prop},
    Holds m Q → (∀ a, Q a → Holds (f a) R) → Holds (m >>= f) R

namespace Judgement

variable (L : Judgement Res)

/-- The judgement holds of the task, whatever it returns. -/
def Admits (m : Task Res α) : Prop := L.Holds m fun _ => True

def Calls (o : Op) : Prop := L.Admits (op o)

variable {L}

theorem admits_ret (a : α) : L.Admits (Task.ret a) := L.ret trivial

theorem Admits.holds {Q : α → Prop} (hm : L.Admits m) (hQ : ∀ a, Q a) :
    L.Holds m Q := by
  rw [← bind_pure m]
  exact L.bind hm fun a _ => L.ret (hQ a)

theorem admits_bind (hm : L.Admits m)
    (hf : ∀ a, L.Admits (f a)) : L.Admits (m >>= f) := L.bind hm fun a _ => hf a

theorem admits_ite_ret {c : Prop} [Decidable c] (hm : L.Admits m) :
    L.Admits (if c then Task.ret a else m) := by
  split
  · exact admits_ret a
  · exact hm

theorem admits_then {c : α → Prop} [DecidablePred c] {r : α → β} (hm : L.Admits m)
    (hf : ∀ a, L.Admits (f a)) : L.Admits (m >>= fun a => if c a then Task.ret (r a) else f a) :=
  admits_bind hm fun a => admits_ite_ret (hf a)

end Judgement

def run (exec : (o : Op) → σ → Option (Res o × σ)) : Task Res α → σ → Option (α × σ)
  | ret a, s => some (a, s)
  | call o k, s => (exec o s).bind fun p => (k p.1).run exec p.2

section Run

@[simp] theorem run_ret (a : α) (s : σ) : (ret a : Task Res α).run exec s = some (a, s) := rfl

theorem run_call (o : Op) (k : Res o → Task Res α) (s : σ) :
    (call o k).run exec s = (exec o s).bind fun p => (k p.1).run exec p.2 := rfl

theorem run_bind (m : Task Res α) (f : α → Task Res β) (s : σ) :
    (m >>= f).run exec s = (m.run exec s).bind fun p => (f p.1).run exec p.2 := by
  induction m generalizing s with
  | ret a => rfl
  | call o k ih =>
    rw [call_bind, run_call, run_call, bind_assoc]
    congr 1
    funext p
    exact ih p.1 p.2

end Run

/-- If the task returns from `s`, then `Q` holds of its result and the final state. -/
def Ends (exec : (o : Op) → σ → Option (Res o × σ)) (m : Task Res α) (s : σ)
    (Q : α → σ → Prop) : Prop :=
  ∀ a t, m.run exec s = some (a, t) → Q a t

namespace Ends

variable {s : σ} {Q : α → σ → Prop}

theorem ret (h : Q a s) : (Task.ret a : Task Res α).Ends exec s Q := by
  rintro _ _ ⟨⟩
  exact h

theorem call {k : Res o → Task Res α}
    (h : ∀ r t, exec o s = some (r, t) → (k r).Ends exec t Q) :
    (Task.call o k).Ends exec s Q := by
  intro a t hr
  obtain ⟨⟨r, u⟩, hu, hk⟩ := bind_eq_some_iff.mp hr
  exact h r u hu a t hk

theorem op {Q : Res o → σ → Prop} (h : ∀ r t, exec o s = some (r, t) → Q r t) :
    (Task.op o).Ends exec s Q := call fun r t hr => ret (h r t hr)

theorem bind
    (hm : m.Ends exec s fun a t => (f a).Ends exec t R) : (m >>= f).Ends exec s R := by
  intro b u hr
  rw [run_bind] at hr
  obtain ⟨⟨a, t⟩, hat, hbu⟩ := bind_eq_some_iff.mp hr
  exact hm a t hat b u hbu

theorem mono {R : α → σ → Prop} (hm : m.Ends exec s Q)
    (h : ∀ a t, Q a t → R a t) : m.Ends exec s R := fun a t hr => h a t (hm a t hr)

theorem seq (hm : m.Ends exec s Q)
    (hf : ∀ a t, Q a t → (f a).Ends exec t R) : (m >>= f).Ends exec s R :=
  bind (hm.mono hf)

end Ends

/-- The task returns from `s`, with a result and a final state that satisfy `Q`. -/
def Returns (exec : (o : Op) → σ → Option (Res o × σ)) (m : Task Res α) (s : σ)
    (Q : α → σ → Prop) : Prop :=
  ∃ a t, m.run exec s = some (a, t) ∧ Q a t

namespace Returns

variable {s : σ} {Q : α → σ → Prop}

theorem ret (h : Q a s) : (Task.ret a : Task Res α).Returns exec s Q := ⟨a, s, rfl, h⟩

theorem op {Q : Res o → σ → Prop} {r : Res o} {t : σ} (hr : exec o s = some (r, t))
    (h : Q r t) : (Task.op o).Returns exec s Q := by
  refine ⟨r, t, ?_, h⟩
  rw [Task.op, run_call, hr]
  rfl

theorem bind
    (hm : m.Returns exec s fun a t => (f a).Returns exec t R) : (m >>= f).Returns exec s R := by
  obtain ⟨a, t, hat, b, u, hbu, hR⟩ := hm
  exact ⟨b, u, by rw [run_bind, hat]; exact hbu, hR⟩

theorem mono {R : α → σ → Prop} (hm : m.Returns exec s Q)
    (h : ∀ a t, Q a t → R a t) : m.Returns exec s R := by
  obtain ⟨a, t, hat, hq⟩ := hm
  exact ⟨a, t, hat, h a t hq⟩

theorem seq (hm : m.Returns exec s Q)
    (hf : ∀ a t, Q a t → (f a).Returns exec t R) : (m >>= f).Returns exec s R :=
  bind (hm.mono hf)

theorem ends (hm : m.Returns exec s Q) : m.Ends exec s Q := by
  obtain ⟨a, t, hat, hq⟩ := hm
  intro b u hbu
  rw [hat] at hbu
  cases hbu
  exact hq

end Returns

/-- Every call keeps `I`, from whatever state with `I` it is made, and the result
satisfies `Q`. Other threads may change the state between the calls as long as they keep
`I` too. -/
def Keeps (exec : (o : Op) → σ → Option (Res o × σ)) (I : σ → Prop) :
    Task Res α → (α → Prop) → Prop
  | ret a, Q => Q a
  | call o k, Q => ∀ s r t, I s → exec o s = some (r, t) → I t ∧ Keeps exec I (k r) Q

namespace Keeps

variable {I : σ → Prop} {Q : α → Prop}

theorem ret (h : Q a) : (Task.ret a : Task Res α).Keeps exec I Q := h

theorem op {Q : Res o → Prop}
    (h : ∀ s r t, I s → exec o s = some (r, t) → I t ∧ Q r) :
    (Task.op o).Keeps exec I Q := h

theorem bind {R : β → Prop}
    (hm : m.Keeps exec I Q) (hf : ∀ a, Q a → (f a).Keeps exec I R) :
    (m >>= f).Keeps exec I R := by
  induction m with
  | ret a => exact hf a hm
  | call o k ih =>
    intro s r t hs hr
    obtain ⟨ht, hk⟩ := hm s r t hs hr
    exact ⟨ht, ih r hk⟩

theorem mono {R : α → Prop} (hm : m.Keeps exec I Q) (h : ∀ a, Q a → R a) :
    m.Keeps exec I R := by
  rw [← bind_pure m]
  exact hm.bind h

theorem ends {s : σ} (hm : m.Keeps exec I Q) (hs : I s) :
    m.Ends exec s fun a t => I t ∧ Q a := by
  induction m generalizing s with
  | ret a => exact .ret ⟨hs, hm⟩
  | call o k ih =>
    exact .call fun r t hr => by
      obtain ⟨ht, hk⟩ := hm s r t hs hr
      exact ih r hk ht

end Keeps

/-- From `s` on, `P` holds of every call and the state it is made in, and `Q` of the result and
the final state if the task returns. -/
def Heeds (exec : (o : Op) → σ → Option (Res o × σ)) (P : Op → σ → Prop) :
    Task Res α → σ → (α → σ → Prop) → Prop
  | ret a, s, Q => Q a s
  | call o k, s, Q => P o s ∧ ∀ r t, exec o s = some (r, t) → Heeds exec P (k r) t Q

variable {Q : α → σ → Prop}

namespace Heeds

variable {P : Op → σ → Prop} {s : σ}

theorem ret (h : Q a s) :
    (Task.ret a : Task Res α).Heeds exec P s Q := h

theorem op {Q : Res o → σ → Prop} (hp : P o s)
    (h : ∀ r t, exec o s = some (r, t) → Q r t) : (Task.op o).Heeds exec P s Q := ⟨hp, h⟩

theorem seq
    (hm : m.Heeds exec P s Q) (hf : ∀ a t, Q a t → (f a).Heeds exec P t R) :
    (m >>= f).Heeds exec P s R := by
  induction m generalizing s with
  | ret a => exact hf a s hm
  | call o k ih => exact ⟨hm.1, fun r t hr => ih r (hm.2 r t hr)⟩

theorem bind (hm : m.Heeds exec P s fun a t => (f a).Heeds exec P t R) :
    (m >>= f).Heeds exec P s R := hm.seq fun _ _ h => h

theorem mono {R : α → σ → Prop} (hm : m.Heeds exec P s Q)
    (h : ∀ a t, Q a t → R a t) : m.Heeds exec P s R := by
  rw [← bind_pure m]
  exact hm.seq h

theorem ends (hm : m.Heeds exec P s Q) :
    m.Ends exec s Q := by
  induction m generalizing s with
  | ret a => exact .ret hm
  | call o k ih => exact .call fun r t hr => ih r (hm.2 r t hr)

theorem and_ends {R : α → σ → Prop} (hm : m.Heeds exec P s Q)
    (he : m.Ends exec s R) : m.Heeds exec P s fun a t => Q a t ∧ R a t := by
  induction m generalizing s with
  | ret a => exact ⟨hm, he a s rfl⟩
  | call o k ih =>
    refine ⟨hm.1, fun r t hr => ih r (hm.2 r t hr) fun a u hu => he a u ?_⟩
    rw [run_call, hr]
    exact hu

/-- A run that stops at calls that fail the test `ok` heeds what the test shows. -/
theorem of_tested_run {t : σ} {ok : Op → σ → Bool} (hok : ∀ o s, ok o s = true → P o s)
    (hrun : m.run (fun o s => if ok o s then exec o s else none) s = some (a, t)) (hq : Q a t) :
    m.Heeds exec P s Q := by
  induction m generalizing s with
  | ret a =>
    cases hrun
    exact hq
  | call o k ih =>
    obtain ⟨⟨r, u⟩, hr, hk⟩ := Option.bind_eq_some_iff.mp hrun
    obtain ⟨htest, hr⟩ := (Option.ite_none_right_eq_some ..).mp hr
    refine ⟨hok o s htest, fun r' u' hr' => ?_⟩
    rw [hr] at hr'
    cases hr'
    exact ih r hk

end Heeds

/-- Heeding `P` from every state with `I`, and keeping `I`, as a judgement. -/
def Judgement.heeds (exec : (o : Op) → σ → Option (Res o × σ)) (P : Op → σ → Prop)
    (I : σ → Prop) : Judgement Res where
  Holds m Q := ∀ s, I s → m.Heeds exec P s fun a t => I t ∧ Q a
  ret h _ hs := Heeds.ret ⟨hs, h⟩
  bind hm hf s hs := (hm s hs).seq fun a t ht => hf a ht.2 t ht.1

/-- While others change the state by `env` before each call of the task, `P` holds of every call
and the state it is made in, and `Q` of the result and the final state, as long as the calls meet
`ok`. -/
def Amid (exec : (o : Op) → σ → Option (Res o × σ)) (env : σ → σ → Prop) (ok P : Op → σ → Prop) :
    Task Res α → σ → (α → σ → Prop) → Prop
  | ret a, s, Q => Q a s
  | call o k, s, Q => ∀ t, env s t → P o t ∧
      (ok o t → ∀ r u, exec o t = some (r, u) → Amid exec env ok P (k r) u Q)

/-- The call at which the task blocks when it is run in one go, and the state it is made in. -/
def blocked (exec : (o : Op) → σ → Option (Res o × σ)) : Task Res α → σ → Option (Op × σ)
  | ret _, _ => none
  | call o k, s =>
    match exec o s with
    | none => some (o, s)
    | some p => (k p.1).blocked exec p.2

namespace Amid

variable {env : σ → σ → Prop} {ok P : Op → σ → Prop} {s : σ}

theorem seq
    (hm : m.Amid exec env ok P s Q) (hf : ∀ a t, Q a t → (f a).Amid exec env ok P t R) :
    (m >>= f).Amid exec env ok P s R := by
  induction m generalizing s with
  | ret a => exact hf a s hm
  | call o k ih =>
    intro t ht
    obtain ⟨hp, hstep⟩ := hm t ht
    exact ⟨hp, fun hok r u hr => ih r (hstep hok r u hr)⟩

theorem of_returns {I : σ → Prop} (hcalm : ∀ s t, I s → env s t → t = s)
    (hI : ∀ o s r t, I s → exec o s = some (r, t) → I t)
    (hP : ∀ o s r t, exec o s = some (r, t) → P o s) (hs : I s) (hm : m.Returns exec s Q) :
    m.Amid exec env ok P s Q := by
  induction m generalizing s with
  | ret a =>
    obtain ⟨_, _, ⟨⟩, hq⟩ := hm
    exact hq
  | call o k ih =>
    intro t ht
    obtain rfl := hcalm s t hs ht
    obtain ⟨b, v, hrun, hq⟩ := hm
    obtain ⟨⟨r, u⟩, hr, hk⟩ := bind_eq_some_iff.mp hrun
    refine ⟨hP o t r u hr, fun _ r' u' hr' => ?_⟩
    rw [hr] at hr'
    cases hr'
    exact ih r (hI o t r u hs hr) ⟨b, v, hk, hq⟩

theorem of_blocked {t : σ} (henv : ∀ s, env s s)
    (hok : ∀ o s, ok o s) (hm : m.Amid exec env ok P s Q) (h : m.blocked exec s = some (o, t)) :
    P o t := by
  induction m generalizing s with
  | ret a => cases h
  | call o' k ih =>
    obtain ⟨hp, hstep⟩ := hm s (henv s)
    rw [blocked] at h
    split at h
    · cases h
      exact hp
    · next p hr => exact ih p.1 (hstep (hok o' s) p.1 p.2 hr) h

end Amid

/-- Going on amid others from every state with `I`, and keeping `I`, as a judgement. -/
def Judgement.amid (exec : (o : Op) → σ → Option (Res o × σ)) (env : σ → σ → Prop)
    (ok P : Op → σ → Prop) (I : σ → Prop) : Judgement Res where
  Holds m Q := ∀ s, I s → m.Amid exec env ok P s fun a t => I t ∧ Q a
  ret h _ hs := ⟨hs, h⟩
  bind hm hf s hs := (hm s hs).seq fun a t ht => hf a ht.2 t ht.1

/-- Execute a call and write down what is to be remembered of it. -/
def noting {γ : Type} (exec : (o : Op) → σ → Option (Res o × σ)) (note : (o : Op) → Res o → γ → γ)
    (o : Op) (s : γ × σ) : Option (Res o × (γ × σ)) :=
  (exec o s.2).map fun p => (p.1, note o p.1 s.1, p.2)

theorem Returns.noting {s : σ} (note : (o : Op) → Res o → γ → γ) (g : γ)
    (hm : m.Returns exec s Q) : m.Returns (noting exec note) (g, s) fun a t => Q a t.2 := by
  obtain ⟨a, t, hrun, hq⟩ := hm
  induction m generalizing s g with
  | ret b =>
    cases hrun
    exact .ret hq
  | call o k ih =>
    obtain ⟨⟨r, u⟩, hr, hk⟩ := bind_eq_some_iff.mp hrun
    obtain ⟨b, v, hb, hqb⟩ := ih r (note o r g) hk
    refine ⟨b, v, ?_, hqb⟩
    rw [run_call, Task.noting, hr]
    exact hb

def Judgement.keeps (exec : (o : Op) → σ → Option (Res o × σ)) (I : σ → Prop) :
    Judgement Res where
  Holds m Q := m.Keeps exec I Q
  ret h := Keeps.ret h
  bind hm hf := hm.bind hf

end Task

/-- Threads with what is left of their tasks, over a shared state. -/
structure Pool (ι : Type) (Res : Op → Type) (σ : Type) where
  tasks : ι → Task Res Unit
  state : σ

variable {p q : Pool ι Res σ}

namespace Pool

variable [DecidableEq ι]

def step (exec : (o : Op) → σ → Option (Res o × σ)) (p : Pool ι Res σ) (i : ι) :
    Option (Pool ι Res σ) :=
  match p.tasks i with
  | .ret _ => none
  | .call o k => (exec o p.state).map fun a => ⟨Function.update p.tasks i (k a.1), a.2⟩

/-- The condition `ok` on the call that a thread is about to make. -/
def Allows (ok : ι → Op → σ → Prop) (p : Pool ι Res σ) (i : ι) : Prop :=
  ∀ o, (p.tasks i).next = some o → ok i o p.state

instance (ok : ι → Op → σ → Prop) [∀ i o s, Decidable (ok i o s)] (p : Pool ι Res σ) (i : ι) :
    Decidable (p.Allows ok i) :=
  match h : (p.tasks i).next with
  | none => isTrue fun o ho => by rw [h] at ho; cases ho
  | some o =>
    decidable_of_iff (ok i o p.state) ⟨fun hok o' ho' => by
      rw [h] at ho'
      cases ho'
      exact hok, fun hall => hall o h⟩

theorem step_eq_some {i : ι}
    (h : p.step exec i = some q) : ∃ o k r t, p.tasks i = .call o k ∧
      exec o p.state = some (r, t) ∧ q = ⟨update p.tasks i (k r), t⟩ := by
  rw [step] at h
  split at h
  · cases h
  · next o k htask =>
    obtain ⟨⟨r, t⟩, hr, rfl⟩ := map_eq_some_iff.mp h
    exact ⟨o, k, r, t, htask, hr, rfl⟩

end Pool

/-- What an argument about threads fixes: how calls are executed, which calls the runs in
question may make, what each call must find when it is made, and an invariant of the
shared state and what every thread knows of it. -/
structure Discipline (ι : Type) {Op : Type} (Res : Op → Type) (σ V : Type) where
  exec : (o : Op) → σ → Option (Res o × σ)
  ok : ι → Op → σ → Prop
  need : ι → Op → σ → Prop
  Inv : (ι → V) → σ → Prop

namespace Discipline

variable [DecidableEq ι] (D : Discipline ι Res σ V)

/-- Thread `i`, knowing `v`, finds what each of its calls needs, every call keeps the
invariant while only the thread's own knowledge changes, and the task ends in `Q`. -/
def Safe (i : ι) : Task Res α → V → (α → V → Prop) → Prop
  | .ret a, v, Q => Q a v
  | .call o k, v, Q => ∀ vs s, vs i = v → D.Inv vs s → D.need i o s ∧
      (D.ok i o s → ∀ r t, D.exec o s = some (r, t) →
        ∃ w, D.Inv (Function.update vs i w) t ∧ Safe i (k r) w Q)

variable {D} {i : ι} {v : V} {R : β → V → Prop}

namespace Safe

theorem ret {Q : α → V → Prop} (h : Q a v) :
    D.Safe i (Task.ret a : Task Res α) v Q := h

theorem seq {Q : α → V → Prop} (hm : D.Safe i m v Q)
    (hf : ∀ a w, Q a w → D.Safe i (f a) w R) : D.Safe i (m >>= f) v R := by
  induction m generalizing v with
  | ret a => exact hf a v hm
  | call o k ih =>
    intro vs s hv hs
    obtain ⟨hneed, hstep⟩ := hm vs s hv hs
    refine ⟨hneed, fun hok r t hr => ?_⟩
    obtain ⟨w, hw, hk⟩ := hstep hok r t hr
    exact ⟨w, hw, ih r hk⟩

theorem bind (hm : D.Safe i m v fun a w => D.Safe i (f a) w R) : D.Safe i (m >>= f) v R :=
  seq hm fun _ _ h => h

theorem mono {Q R : α → V → Prop} (hm : D.Safe i m v Q)
    (h : ∀ a w, Q a w → R a w) : D.Safe i m v R := by
  rw [← bind_pure m]
  exact hm.seq h

end Safe

/-- Being safe from everything in `S` that the thread may know, and ending in `S`, as a
judgement. -/
def within (D : Discipline ι Res σ V) (i : ι) (S : V → Prop) : Task.Judgement Res where
  Holds m Q := ∀ v, S v → D.Safe i m v fun a w => S w ∧ Q a
  ret h _ hv := ⟨hv, h⟩
  bind hm hf v hv := (hm v hv).seq fun a w h => hf a h.2 w h.1

/-- Being safe without a change of what the thread knows, as a judgement. -/
def judgement (D : Discipline ι Res σ V) (i : ι) (v : V) : Task.Judgement Res where
  Holds m Q := D.Safe i m v fun a w => w = v ∧ Q a
  ret h := ⟨rfl, h⟩
  bind hm hf := Safe.bind (hm.mono fun a w h => by
    obtain ⟨rfl, ha⟩ := h
    exact hf a ha)

theorem Safe.bind_admits
    (hm : (D.judgement i v).Admits m) (hf : ∀ a, D.Safe i (f a) v R) :
    D.Safe i (m >>= f) v R :=
  .bind (hm.mono fun a w h => by
    obtain ⟨rfl, -⟩ := h
    exact hf a)

theorem within_of_judgement {S : V → Prop}
    (hm : ∀ v, S v → (D.judgement i v).Admits m) : (D.within i S).Admits m := by
  intro v hv
  apply (hm v hv).mono
  rintro a w ⟨rfl, -⟩
  exact ⟨hv, trivial⟩

/-- The discipline whose invariant is a condition on the shared state and one on what each
thread knows of it. -/
def threadwise (exec : (o : Op) → σ → Option (Res o × σ)) (ok need : ι → Op → σ → Prop)
    (Common : σ → Prop) (Fits : ι → V → σ → Prop) : Discipline ι Res σ V where
  exec := exec
  ok := ok
  need := need
  Inv vs s := Common s ∧ ∀ j, Fits j (vs j) s

/-- A call is safe if it keeps the condition on the state and what other threads know. -/
theorem Safe.threadwise {ok need : ι → Op → σ → Prop}
    {Common : σ → Prop} {Fits : ι → V → σ → Prop} {Q : Res o → V → Prop}
    (h : ∀ s, Common s → Fits i v s → need i o s ∧
      (ok i o s → ∀ r t, exec o s = some (r, t) → Common t ∧
        (∀ j u, j ≠ i → Fits j u s → Fits j u t) ∧ ∃ w, Fits i w t ∧ Q r w)) :
    (threadwise exec ok need Common Fits).Safe i (Task.op o) v Q := by
  rintro vs s rfl ⟨hcommon, hfits⟩
  obtain ⟨hneed, hstep⟩ := h s hcommon (hfits i)
  refine ⟨hneed, fun hok r t hr => ?_⟩
  obtain ⟨ht, hothers, w, hw, hq⟩ := hstep hok r t hr
  refine ⟨w, ⟨ht, fun j => ?_⟩, hq⟩
  by_cases hj : j = i
  · subst hj
    simpa using hw
  · simpa [hj] using hothers j (vs j) hj (hfits j)

/-- Every thread's task is safe from what the thread knows, and the invariant holds. -/
def Sound (D : Discipline ι Res σ V) (p : Pool ι Res σ) : Prop :=
  ∃ vs, D.Inv vs p.state ∧ ∀ i, D.Safe i (p.tasks i) (vs i) fun _ _ => True

theorem Sound.step (hp : D.Sound p) (hok : p.Allows D.ok i)
    (h : p.step D.exec i = some q) : D.Sound q := by
  obtain ⟨vs, hinv, hsafe⟩ := hp
  obtain ⟨o, k, r, t, htask, hr, rfl⟩ := Pool.step_eq_some h
  have hi := hsafe i
  rw [htask] at hi
  obtain ⟨w, hw, hk⟩ := (hi vs p.state rfl hinv).2 (hok o (by rw [htask]; rfl)) r t hr
  refine ⟨update vs i w, hw, fun j => ?_⟩
  by_cases hj : j = i
  · subst hj
    simpa using hk
  · simpa [hj] using hsafe j

/-- In every run whose calls are allowed, the invariant holds throughout and every call
finds what it needs. -/
theorem Sound.reaches (hp : D.Sound p)
    (h : Reaches (Pool.step D.exec) (Pool.Allows D.ok) p q) : D.Sound q :=
  h.keeps hp fun hv hok hstep => hv.step hok hstep

theorem Sound.need (hp : D.Sound p)
    (h : (p.tasks i).next = some o) : D.need i o p.state := by
  obtain ⟨vs, hinv, hsafe⟩ := hp
  have hi := hsafe i
  cases htask : p.tasks i with
  | ret a => simp [htask, Task.next] at h
  | call o' k =>
    rw [htask] at hi h
    cases h
    exact (hi vs p.state rfl hinv).1

end Discipline

end ZenFs.Library
