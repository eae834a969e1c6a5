import Mathlib.Data.Finset.Card
import ZenFs.Library.Steps

/-!
Threads that take and release locks, and when they can all be blocked.

A thread is the sequence of lock operations it still has to carry out. Besides locks
there is a counted resource with a limit, guarded by a condition variable: a thread
that finds no free slot gives its mutex back and sleeps until it is notified.

If every thread takes its locks in an increasing order, the chain of threads that wait
for one another ends. So threads can all be blocked only where one of them sleeps, or
asks for a lock against the order.
-/

namespace ZenFs.Library

open Function Option Finset

variable {ι L : Type}

/-- The lock operations of a thread, in order. -/
inductive Code (L : Type)
  | done
  | lock (l : L) (c : Code L)
  | unlock (l : L) (c : Code L)
  /-- Take the lock if it is free and go on with `yes`, otherwise with `no`. -/
  | tryLock (l : L) (yes no : Code L)
  /-- `std::condition_variable::wait` with the mutex `l`, for a free slot. -/
  | await (l : L) (c : Code L)
  /-- Inside `await`, with the mutex given back. -/
  | asleep (l : L) (c : Code L)
  | takeSlot (c : Code L)
  | freeSlot (c : Code L)
  | notifyAll (c : Code L)
  deriving DecidableEq

namespace Code

def append : Code L → Code L → Code L
  | done, d => d
  | lock l c, d => lock l (c.append d)
  | unlock l c, d => unlock l (c.append d)
  | tryLock l yes no, d => tryLock l (yes.append d) (no.append d)
  | await l c, d => await l (c.append d)
  | asleep l c, d => asleep l (c.append d)
  | takeSlot c, d => takeSlot (c.append d)
  | freeSlot c, d => freeSlot (c.append d)
  | notifyAll c, d => notifyAll (c.append d)

instance : Append (Code L) := ⟨append⟩

section Equations

variable (l : L) (c c' d : Code L)

@[simp] theorem done_append : done ++ d = d := rfl

@[simp] theorem lock_append : lock l c ++ d = lock l (c ++ d) := rfl

@[simp] theorem unlock_append : unlock l c ++ d = unlock l (c ++ d) := rfl

@[simp] theorem tryLock_append : tryLock l c c' ++ d = tryLock l (c ++ d) (c' ++ d) := rfl

@[simp] theorem await_append : await l c ++ d = await l (c ++ d) := rfl

@[simp] theorem asleep_append : asleep l c ++ d = asleep l (c ++ d) := rfl

@[simp] theorem takeSlot_append : takeSlot c ++ d = takeSlot (c ++ d) := rfl

@[simp] theorem freeSlot_append : freeSlot c ++ d = freeSlot (c ++ d) := rfl

@[simp] theorem notifyAll_append : notifyAll c ++ d = notifyAll (c ++ d) := rfl

theorem append_assoc : c ++ c' ++ d = c ++ (c' ++ d) := by
  induction c <;> simp [*]

@[simp] theorem append_done : c ++ done = c := by
  induction c <;> simp [*]

end Equations

def times (c : Code L) : ℕ → Code L
  | 0 => done
  | n + 1 => c ++ c.times n

theorem times_add (c : Code L) (m n : ℕ) : c.times (m + n) = c.times m ++ c.times n := by
  induction m with
  | zero => simp [times]
  | succ m ih => rw [Nat.add_right_comm, times, ih, times, append_assoc]

/-- What `notifyAll` does to a thread. -/
def wake : Code L → Code L
  | asleep _ c => c
  | c => c

end Code

/-- Who holds each lock, what each thread still has to do, and the slots in use. -/
structure Machine (ι L : Type) where
  holder : L → Option ι
  code : ι → Code L
  slots : ℕ

namespace Machine

section Code

variable [DecidableEq ι] (s : Machine ι L) (t : ι) (c : Code L)

def setCode : Machine ι L := { s with code := update s.code t c }

@[simp] theorem setCode_holder : (s.setCode t c).holder = s.holder := rfl

@[simp] theorem setCode_slots : (s.setCode t c).slots = s.slots := rfl

@[simp] theorem setCode_code_self : (s.setCode t c).code t = c := by simp [setCode]

theorem setCode_code_of_ne {u : ι} (h : u ≠ t) : (s.setCode t c).code u = s.code u := by
  simp [setCode, h]

end Code

section Holder

variable [DecidableEq L] (s : Machine ι L) (l : L) (o : Option ι)

def setHolder : Machine ι L := { s with holder := update s.holder l o }

@[simp] theorem setHolder_code : (s.setHolder l o).code = s.code := rfl

@[simp] theorem setHolder_slots : (s.setHolder l o).slots = s.slots := rfl

@[simp] theorem setHolder_holder_self : (s.setHolder l o).holder l = o := by simp [setHolder]

theorem setHolder_holder_of_ne {m : L} (h : m ≠ l) :
    (s.setHolder l o).holder m = s.holder m := by
  simp [setHolder, h]

end Holder

variable [DecidableEq ι] [DecidableEq L]

/-- Thread `t` carries out its next operation; there is no result while it is blocked. -/
def step (limit : ℕ) (s : Machine ι L) (t : ι) : Option (Machine ι L) :=
  match s.code t with
  | .done => none
  | .lock l c =>
    if s.holder l = none then some ((s.setHolder l (some t)).setCode t c) else none
  | .unlock l c => some ((s.setHolder l none).setCode t c)
  | .tryLock l yes no =>
    if s.holder l = none then some ((s.setHolder l (some t)).setCode t yes)
    else some (s.setCode t no)
  | .await l c =>
    if s.slots < limit then some (s.setCode t c)
    else some ((s.setHolder l none).setCode t (.asleep l (.lock l (.await l c))))
  | .asleep _ _ => none
  | .takeSlot c => some { s.setCode t c with slots := s.slots + 1 }
  | .freeSlot c => some { s.setCode t c with slots := s.slots - 1 }
  | .notifyAll c => some { s with code := fun u => (update s.code t c u).wake }

def Stuck (limit : ℕ) (s : Machine ι L) : Prop :=
  (∃ t, s.code t ≠ .done) ∧ ∀ t, s.step limit t = none

end Machine

namespace Code

/-- The code takes and gives back `l` in turn, and ends without it. The flag says
whether the thread holds `l`. -/
def Bracketed [DecidableEq L] (l : L) : Bool → Code L → Prop
  | b, done => b = false
  | b, lock m c => if m = l then b = false ∧ c.Bracketed l true else c.Bracketed l b
  | b, unlock m c => if m = l then b = true ∧ c.Bracketed l false else c.Bracketed l b
  | b, tryLock m yes no =>
    (if m = l then b = false ∧ yes.Bracketed l true else yes.Bracketed l b) ∧
      no.Bracketed l b
  | b, await m c => (m = l → b = true) ∧ c.Bracketed l b
  | b, asleep m c => (m = l → b = false) ∧ c.Bracketed l b
  | b, takeSlot c => c.Bracketed l b
  | b, freeSlot c => c.Bracketed l b
  | b, notifyAll c => c.Bracketed l b

/-- As long as it keeps `l`, the code only asks for locks that may follow `l`. -/
def Follows (lt : L → L → Prop) (l : L) : Code L → Prop
  | done => True
  | lock m c => lt l m ∧ c.Follows lt l
  | unlock m c => m = l ∨ c.Follows lt l
  | tryLock _ yes no => yes.Follows lt l ∧ no.Follows lt l
  | await m c => (m = l ∨ lt l m) ∧ c.Follows lt l
  | asleep _ c => c.Follows lt l
  | takeSlot c => c.Follows lt l
  | freeSlot c => c.Follows lt l
  | notifyAll c => c.Follows lt l

def Ordered (lt : L → L → Prop) : Code L → Prop
  | done => True
  | lock l c => c.Follows lt l ∧ c.Ordered lt
  | tryLock l yes no => yes.Follows lt l ∧ yes.Ordered lt ∧ no.Ordered lt
  -- the mutex is taken again after a sleep
  | await l c => c.Follows lt l ∧ c.Ordered lt
  | unlock _ c => c.Ordered lt
  | asleep _ c => c.Ordered lt
  | takeSlot c => c.Ordered lt
  | freeSlot c => c.Ordered lt
  | notifyAll c => c.Ordered lt

/-- The code takes a slot, after waiting for one, and gives it back in turn. The flag
says whether the thread has a slot. -/
def Slotted : Bool → Code L → Prop
  | b, done => b = false
  | b, takeSlot c => b = false ∧ c.Slotted true
  | b, freeSlot c => b = true ∧ c.Slotted false
  | b, await _ c => b = false ∧ c.Slotted b
  | b, asleep _ c => b = false ∧ c.Slotted b
  | b, tryLock _ yes no => yes.Slotted b ∧ no.Slotted b
  | b, lock _ c => c.Slotted b
  | b, unlock _ c => c.Slotted b
  | b, notifyAll c => c.Slotted b

def UsesSlots : Code L → Prop
  | done => False
  | takeSlot _ => True
  | await _ _ => True
  | tryLock _ yes no => yes.UsesSlots ∨ no.UsesSlots
  | lock _ c => c.UsesSlots
  | unlock _ c => c.UsesSlots
  | asleep _ c => c.UsesSlots
  | freeSlot c => c.UsesSlots
  | notifyAll c => c.UsesSlots

def Awake : Code L → Prop
  | done => True
  | asleep _ _ => False
  | tryLock _ yes no => yes.Awake ∧ no.Awake
  | lock _ c => c.Awake
  | unlock _ c => c.Awake
  | await _ c => c.Awake
  | takeSlot c => c.Awake
  | freeSlot c => c.Awake
  | notifyAll c => c.Awake

section Wake

variable {lt : L → L → Prop} {l : L} {b : Bool} {c : Code L}

theorem Bracketed.wake [DecidableEq L] (h : c.Bracketed l b) : c.wake.Bracketed l b := by
  cases c with
  | asleep m c => exact h.2
  | _ => exact h

theorem Follows.wake (h : c.Follows lt l) : c.wake.Follows lt l := by
  cases c <;> exact h

theorem Ordered.wake (h : c.Ordered lt) : c.wake.Ordered lt := by
  cases c <;> exact h

theorem Awake.wake_eq (h : c.Awake) : c.wake = c := by
  cases c with
  | asleep m c => cases h
  | _ => rfl

end Wake

section Append

variable {lt : L → L → Prop} {l : L} {b : Bool} {c d : Code L}

theorem Bracketed.append [DecidableEq L] (hc : c.Bracketed l b) (hd : d.Bracketed l false) :
    (c ++ d).Bracketed l b := by
  induction c generalizing b with
  | done =>
    cases hc
    exact hd
  | lock m c ih =>
    simp only [Bracketed, lock_append] at hc ⊢
    split_ifs at hc ⊢
    · exact ⟨hc.1, ih hc.2⟩
    · exact ih hc
  | unlock m c ih =>
    simp only [Bracketed, unlock_append] at hc ⊢
    split_ifs at hc ⊢
    · exact ⟨hc.1, ih hc.2⟩
    · exact ih hc
  | tryLock m yes no ihy ihn =>
    simp only [Bracketed] at hc ⊢
    refine ⟨?_, ihn hc.2⟩
    split_ifs at hc ⊢
    · exact ⟨hc.1.1, ihy hc.1.2⟩
    · exact ihy hc.1
  | await m c ih | asleep m c ih => exact ⟨hc.1, ih hc.2⟩
  | takeSlot c ih | freeSlot c ih | notifyAll c ih => exact ih hc

theorem Follows.append [DecidableEq L] (hl : c.Bracketed l true) (hc : c.Follows lt l) :
    (c ++ d).Follows lt l := by
  induction c with
  | done => cases hl
  | lock m c ih =>
    simp only [Bracketed] at hl
    split_ifs at hl
    · cases hl.1
    · exact ⟨hc.1, ih hl hc.2⟩
  | unlock m c ih =>
    simp only [Bracketed] at hl
    split_ifs at hl with hm
    · exact Or.inl hm
    · exact Or.inr (ih hl (hc.resolve_left hm))
  | tryLock m yes no ihy ihn =>
    simp only [Bracketed] at hl
    refine ⟨?_, ihn hl.2 hc.2⟩
    split_ifs at hl
    · cases hl.1.1
    · exact ihy hl.1 hc.1
  | await m c ih => exact ⟨hc.1, ih hl.2 hc.2⟩
  | asleep m c ih => exact ih hl.2 hc
  | takeSlot c ih | freeSlot c ih | notifyAll c ih => exact ih hl hc

theorem Ordered.append [DecidableEq L] (hl : ∀ l, ∃ b, c.Bracketed l b) (hc : c.Ordered lt)
    (hd : d.Ordered lt) : (c ++ d).Ordered lt := by
  induction c with
  | done => exact hd
  | lock m c ih =>
    have htail : ∀ l, ∃ b, c.Bracketed l b := by
      intro l
      obtain ⟨b, hb⟩ := hl l
      simp only [Bracketed] at hb
      split_ifs at hb
      · exact ⟨_, hb.2⟩
      · exact ⟨_, hb⟩
    obtain ⟨b, hb⟩ := hl m
    simp only [Bracketed] at hb
    exact ⟨hc.1.append hb.2, ih htail hc.2⟩
  | unlock m c ih =>
    apply ih _ hc
    intro l
    obtain ⟨b, hb⟩ := hl l
    simp only [Bracketed] at hb
    split_ifs at hb
    · exact ⟨_, hb.2⟩
    · exact ⟨_, hb⟩
  | tryLock m yes no ihy ihn =>
    have htail : ∀ l, ∃ b, yes.Bracketed l b := by
      intro l
      obtain ⟨b, hb⟩ := hl l
      simp only [Bracketed] at hb
      split_ifs at hb
      · exact ⟨_, hb.1.2⟩
      · exact ⟨_, hb.1⟩
    obtain ⟨b, hb⟩ := hl m
    simp only [Bracketed] at hb
    exact ⟨hc.1.append hb.1.2, ihy htail hc.2.1,
      ihn (fun l => (hl l).imp fun _ h => h.2) hc.2.2⟩
  | await m c ih =>
    obtain ⟨b, hb⟩ := hl m
    exact ⟨hc.1.append (hb.1 rfl ▸ hb.2), ih (fun l => (hl l).imp fun _ h => h.2) hc.2⟩
  | asleep m c ih => exact ih (fun l => (hl l).imp fun _ h => h.2) hc
  | takeSlot c ih | freeSlot c ih | notifyAll c ih => exact ih hl hc

end Append

/-- Code that starts and ends with no lock, and takes its locks in order. -/
structure Proper [DecidableEq L] (lt : L → L → Prop) (c : Code L) : Prop where
  bracketed : ∀ l, c.Bracketed l false
  ordered : c.Ordered lt

namespace Proper

variable [DecidableEq L] {lt : L → L → Prop} {c d : Code L}

theorem done : Proper lt (done : Code L) := ⟨fun _ => rfl, trivial⟩

theorem append (hc : Proper lt c) (hd : Proper lt d) : Proper lt (c ++ d) where
  bracketed l := (hc.bracketed l).append (hd.bracketed l)
  ordered := hc.ordered.append (fun l => ⟨_, hc.bracketed l⟩) hd.ordered

theorem times (hc : Proper lt c) (n : ℕ) : Proper lt (c.times n) := by
  induction n with
  | zero => exact done
  | succ n ih => exact hc.append ih

end Proper

/-- Code that only has to do with locks. -/
def Slotless : Code L → Prop
  | done => True
  | lock _ c => c.Slotless
  | unlock _ c => c.Slotless
  | tryLock _ yes no => yes.Slotless ∧ no.Slotless
  | _ => False

namespace Slotless

variable {c d : Code L}

section

variable (hc : c.Slotless)
include hc

theorem append (hd : d.Slotless) : (c ++ d).Slotless := by
  induction c with
  | done => exact hd
  | lock m c ih | unlock m c ih => exact ih hc
  | tryLock m yes no ihy ihn => exact ⟨ihy hc.1, ihn hc.2⟩
  | _ => cases hc

theorem times (n : ℕ) : (c.times n).Slotless := by
  induction n with
  | zero => trivial
  | succ n ih => exact hc.append ih

theorem slotted_append {b : Bool} (hd : d.Slotted b) :
    (c ++ d).Slotted b := by
  induction c with
  | done => exact hd
  | lock m c ih | unlock m c ih => exact ih hc
  | tryLock m yes no ihy ihn => exact ⟨ihy hc.1, ihn hc.2⟩
  | _ => cases hc

theorem awake_append (hd : d.Awake) : (c ++ d).Awake := by
  induction c with
  | done => exact hd
  | lock m c ih | unlock m c ih => exact ih hc
  | tryLock m yes no ihy ihn => exact ⟨ihy hc.1, ihn hc.2⟩
  | _ => cases hc

theorem not_usesSlots : ¬ c.UsesSlots := by
  induction c with
  | done => exact id
  | lock m c ih | unlock m c ih => exact ih hc
  | tryLock m yes no ihy ihn => exact fun h => h.elim (ihy hc.1) (ihn hc.2)
  | _ => cases hc

end

end Slotless

end Code

namespace Machine

variable [DecidableEq ι] [DecidableEq L]

/-- The code of every thread matches the locks it holds and respects the order. -/
structure Disciplined (lt : L → L → Prop) (s : Machine ι L) : Prop where
  bracketed : ∀ l t, (s.code t).Bracketed l (s.holder l = some t)
  ordered : ∀ t, (s.code t).Ordered lt
  follows : ∀ l t, s.holder l = some t → (s.code t).Follows lt l

namespace Disciplined

variable {lt : L → L → Prop} {s s' : Machine ι L} {t : ι} {l : L} {c : Code L}

theorem init (hh : ∀ l, s.holder l = none) (hc : ∀ t, (s.code t).Proper lt) :
    Disciplined lt s := by
  constructor
  · intro l t
    simpa [hh l] using (hc t).bracketed l
  · exact fun t => (hc t).ordered
  · intro l t hl
    simp [hh l] at hl

section

variable (h : Disciplined lt s)
include h

theorem move
    (hcode : ∀ u, u ≠ t → s'.code u = s.code u ∨ s'.code u = (s.code u).wake)
    (hholder : ∀ u, u ≠ t → ∀ l, s'.holder l = some u ↔ s.holder l = some u)
    (hb : ∀ l, (s'.code t).Bracketed l (s'.holder l = some t))
    (ho : (s'.code t).Ordered lt)
    (hf : ∀ l, s'.holder l = some t → (s'.code t).Follows lt l) : Disciplined lt s' := by
  constructor
  · intro l u
    by_cases hu : u = t
    · rw [hu]
      exact hb l
    · simp only [hholder u hu l]
      rcases hcode u hu with hc | hc <;> rw [hc]
      · exact h.bracketed l u
      · exact (h.bracketed l u).wake
  · intro u
    by_cases hu : u = t
    · rw [hu]
      exact ho
    · rcases hcode u hu with hc | hc <;> rw [hc]
      · exact h.ordered u
      · exact (h.ordered u).wake
  · intro l u hl
    by_cases hu : u = t
    · rw [hu]
      exact hf l (hu ▸ hl)
    · have hl' := (hholder u hu l).mp hl
      rcases hcode u hu with hc | hc <;> rw [hc]
      · exact h.follows l u hl'
      · exact (h.follows l u hl').wake

theorem setCode (hb : ∀ l, c.Bracketed l (s.holder l = some t))
    (ho : c.Ordered lt) (hf : ∀ l, s.holder l = some t → c.Follows lt l) :
    Disciplined lt (s.setCode t c) := by
  apply h.move
  · intro u hu
    exact Or.inl (setCode_code_of_ne s t c hu)
  · intro u _ l
    exact Iff.rfl
  · intro l
    rw [setCode_code_self]
    exact hb l
  · simpa using ho
  · simpa using hf

theorem pass {o : Option ι} (hother : ∀ u, u ≠ t → (o = some u ↔ s.holder l = some u))
    (hb : c.Bracketed l (o = some t)) (hb' : ∀ m, m ≠ l → c.Bracketed m (s.holder m = some t))
    (ho : c.Ordered lt) (hl : o = some t → c.Follows lt l)
    (hf : ∀ m, m ≠ l → s.holder m = some t → c.Follows lt m) :
    Disciplined lt ((s.setHolder l o).setCode t c) := by
  apply h.move
  · intro u hu
    exact Or.inl (setCode_code_of_ne _ t c hu)
  · intro u hu m
    by_cases hm : m = l
    · simpa [hm] using hother u hu
    · simp [setHolder_holder_of_ne _ _ _ hm]
  · intro m
    by_cases hm : m = l
    · simpa [hm] using hb
    · simpa [setHolder_holder_of_ne _ _ _ hm] using hb' m hm
  · simpa using ho
  · intro m hm'
    by_cases hm : m = l
    · simpa [hm] using hl (by simpa [hm] using hm')
    · rw [setCode_holder, setHolder_holder_of_ne _ _ _ hm] at hm'
      simpa using hf m hm hm'

/-- A step of any thread keeps the discipline. -/
theorem step {limit : ℕ} (hs : s.step limit t = some s') :
    Disciplined lt s' := by
  have hb := fun l => h.bracketed l t
  have ho := h.ordered t
  have hf := fun l => h.follows l t
  cases hc : s.code t with
  | done | asleep => simp [Machine.step, hc] at hs
  | lock l c =>
    simp only [hc] at hb ho hf
    simp only [Machine.step, hc] at hs
    split_ifs at hs with hfree
    cases hs
    apply h.pass fun u hu => by simp [hfree, hu.symm]
    · have := hb l
      simp only [Code.Bracketed] at this
      simpa using this.2
    · intro m hm
      simpa [Code.Bracketed, Ne.symm hm] using hb m
    · exact ho.2
    · exact fun _ => ho.1
    · exact fun m _ hm => (hf m hm).2
  | unlock l c =>
    simp only [hc] at hb ho hf
    simp only [Machine.step, hc, some.injEq] at hs
    subst hs
    have hl : s.holder l = some t ∧ c.Bracketed l false := by
      simpa [Code.Bracketed] using hb l
    apply h.pass (fun u hu => by simp [hl.1, hu.symm]) hl.2
    · intro m hm
      simpa [Code.Bracketed, Ne.symm hm] using hb m
    · exact ho
    · rintro ⟨⟩
    · intro m hm hm'
      exact (hf m hm').resolve_left (Ne.symm hm)
  | tryLock l yes no =>
    simp only [hc] at hb ho hf
    simp only [Machine.step, hc] at hs
    split_ifs at hs with hfree
    · cases hs
      apply h.pass fun u hu => by simp [hfree, hu.symm]
      · have := (hb l).1
        simp only [if_true] at this
        simpa using this.2
      · intro m hm
        simpa [Ne.symm hm] using (hb m).1
      · exact ho.2.1
      · exact fun _ => ho.1
      · exact fun m _ hm => (hf m hm).1
    · cases hs
      exact h.setCode (fun m => (hb m).2) ho.2.2 fun m hm => (hf m hm).2
  | await l c =>
    simp only [hc] at hb ho hf
    simp only [Machine.step, hc] at hs
    split_ifs at hs with hslots
    · cases hs
      exact h.setCode (fun m => (hb m).2) ho.2 fun m hm => (hf m hm).2
    · cases hs
      have hl : s.holder l = some t := by simpa using (hb l).1
      apply h.pass fun u hu => by simp [hl, hu.symm]
      · have := (hb l).2
        simpa [Code.Bracketed, hl] using this
      · intro m hm
        have := (hb m).2
        simpa [Code.Bracketed, Ne.symm hm] using this
      · exact ⟨⟨Or.inl rfl, ho.1⟩, ho⟩
      · rintro ⟨⟩
      · intro m hm hm'
        have hlm := (hf m hm').1.resolve_left (Ne.symm hm)
        exact ⟨hlm, Or.inr hlm, (hf m hm').2⟩
  | takeSlot c | freeSlot c =>
    simp only [hc] at hb ho hf
    simp only [Machine.step, hc, some.injEq] at hs
    subst hs
    have hd := h.setCode (c := c) hb ho hf
    exact ⟨hd.bracketed, hd.ordered, hd.follows⟩
  | notifyAll c =>
    simp only [hc] at hb ho hf
    simp only [Machine.step, hc, some.injEq] at hs
    subst hs
    have ht : (update s.code t c t).wake = c.wake := by rw [update_self]
    apply h.move (t := t)
    · intro u hu
      exact Or.inr (by simp [hu])
    · exact fun u _ l => Iff.rfl
    · intro l
      dsimp only
      rw [ht]
      exact Code.Bracketed.wake (hb l)
    · dsimp only
      rw [ht]
      exact Code.Ordered.wake ho
    · intro l hl
      dsimp only
      rw [ht]
      exact Code.Follows.wake (hf l hl)

end

end Disciplined

/-- A thread that is blocked either sleeps or asks for a lock that is held. -/
theorem step_eq_none {limit : ℕ} {s : Machine ι L} {t : ι} (h : s.step limit t = none)
    (ht : s.code t ≠ .done) :
    (∃ l c, s.code t = .asleep l c) ∨
      ∃ l c u, s.code t = .lock l c ∧ s.holder l = some u := by
  cases hc : s.code t with
  | done => exact absurd hc ht
  | lock l c =>
    simp only [step, hc] at h
    split_ifs at h with hfree
    obtain ⟨u, hu⟩ := ne_none_iff_exists'.mp hfree
    exact Or.inr ⟨l, c, u, rfl, hu⟩
  | asleep l c => exact Or.inl ⟨l, c, rfl⟩
  | tryLock | await =>
    simp only [step, hc] at h
    split_ifs at h
  | _ => simp [step, hc] at h

section Slots

variable {users : ι → Prop} {s s' : Machine ι L} {owners : Finset ι} {t : ι} {limit : ℕ}

/-- The slots in use are those of `owners`, only `users` ask for slots, and nobody has
gone to sleep. -/
structure Roomy (users : ι → Prop) (s : Machine ι L) (owners : Finset ι) : Prop where
  slots : s.slots = owners.card
  slotted : ∀ t, (s.code t).Slotted (t ∈ owners)
  asks : ∀ t, (s.code t).UsesSlots → users t
  owns : ∀ t ∈ owners, users t
  awake : ∀ t, (s.code t).Awake

namespace Roomy

omit [DecidableEq L] in
theorem init (hslots : s.slots = 0) (hc : ∀ t, (s.code t).Slotted false)
    (hasks : ∀ t, (s.code t).UsesSlots → users t) (hawake : ∀ t, (s.code t).Awake) :
    Roomy users s ∅ where
  slots := hslots
  slotted t := by simpa using hc t
  asks := hasks
  owns := by simp
  awake := hawake

omit [DecidableEq L] in
theorem move {c : Code L} {owners' : Finset ι} (h : Roomy users s owners)
    (hslots : s'.slots = owners'.card) (hcode : s'.code = update s.code t c)
    (hc : c.Slotted (t ∈ owners')) (hasks : c.UsesSlots → users t) (hawake : c.Awake)
    (howners : ∀ u, u ≠ t → (u ∈ owners' ↔ u ∈ owners)) (ht : t ∈ owners' → users t) :
    Roomy users s' owners' := by
  have hcode' : ∀ u, u = t ∧ s'.code u = c ∨ u ≠ t ∧ s'.code u = s.code u := by
    intro u
    by_cases hu : u = t
    · exact Or.inl ⟨hu, by rw [hcode, hu, update_self]⟩
    · exact Or.inr ⟨hu, by rw [hcode, update_of_ne hu]⟩
  constructor
  · exact hslots
  · intro u
    rcases hcode' u with ⟨rfl, hu⟩ | ⟨hne, hu⟩ <;> rw [hu]
    · exact hc
    · simpa only [howners u hne] using h.slotted u
  · intro u
    rcases hcode' u with ⟨rfl, hu⟩ | ⟨-, hu⟩ <;> rw [hu]
    · exact hasks
    · exact h.asks u
  · intro u hu
    by_cases hut : u = t
    · exact hut ▸ ht (hut ▸ hu)
    · exact h.owns u ((howners u hut).mp hu)
  · intro u
    rcases hcode' u with ⟨rfl, hu⟩ | ⟨-, hu⟩ <;> rw [hu]
    · exact hawake
    · exact h.awake u

omit [DecidableEq L] in
theorem goOn {c : Code L} (h : Roomy users s owners) (hslots : s'.slots = s.slots)
    (hcode : s'.code = update s.code t c) (hc : c.Slotted (t ∈ owners))
    (hasks : c.UsesSlots → users t) (hawake : c.Awake) : Roomy users s' owners :=
  h.move (hslots.trans h.slots) hcode hc hasks hawake (fun _ _ => Iff.rfl) (h.owns t)

/-- A step of any thread leaves the slots to their owners. -/
theorem step (h : Roomy users s owners)
    (hroom : ∀ S : Finset ι, (∀ t ∈ S, users t) → S.card ≤ limit)
    (hs : s.step limit t = some s') : ∃ owners', Roomy users s' owners' := by
  have hsl := h.slotted t
  have hask := h.asks t
  have haw := h.awake t
  cases hc : s.code t with
  | done | asleep => simp [Machine.step, hc] at hs
  | lock l c =>
    simp only [hc] at hsl hask haw
    simp only [Machine.step, hc] at hs
    split_ifs at hs
    cases hs
    exact ⟨owners, h.goOn rfl rfl hsl hask haw⟩
  | unlock l c =>
    simp only [hc] at hsl hask haw
    simp only [Machine.step, hc, some.injEq] at hs
    subst hs
    exact ⟨owners, h.goOn rfl rfl hsl hask haw⟩
  | tryLock l yes no =>
    simp only [hc] at hsl hask haw
    simp only [Machine.step, hc] at hs
    split_ifs at hs
    · cases hs
      exact ⟨owners, h.goOn rfl rfl hsl.1 (fun hu => hask (Or.inl hu)) haw.1⟩
    · cases hs
      exact ⟨owners, h.goOn rfl rfl hsl.2 (fun hu => hask (Or.inr hu)) haw.2⟩
  | await l c =>
    simp only [hc] at hsl hask haw
    -- the thread that waits is a user without a slot, so not all slots are in use
    have hlt : s.slots < limit := by
      have ht : t ∉ owners := by simpa using hsl.1
      have hcard := hroom (insert t owners) (by simpa using ⟨hask trivial, h.owns⟩)
      rw [card_insert_of_notMem ht] at hcard
      rw [h.slots]
      omega
    simp only [Machine.step, hc, if_pos hlt, some.injEq] at hs
    subst hs
    exact ⟨owners, h.goOn rfl rfl hsl.2 (fun _ => hask trivial) haw⟩
  | takeSlot c =>
    simp only [hc] at hsl hask haw
    simp only [Machine.step, hc, some.injEq] at hs
    subst hs
    have ht : t ∉ owners := by simpa using hsl.1
    refine ⟨insert t owners, h.move ?_ rfl (by simpa using hsl.2) (fun _ => hask trivial) haw
      (fun u hu => by simp [hu]) fun _ => hask trivial⟩
    rw [card_insert_of_notMem ht, ← h.slots]
  | freeSlot c =>
    simp only [hc] at hsl hask haw
    simp only [Machine.step, hc, some.injEq] at hs
    subst hs
    have ht : t ∈ owners := by simpa using hsl.1
    refine ⟨owners.erase t, h.move ?_ rfl (by simpa using hsl.2) hask haw
      (fun u hu => by simp [hu]) (by simp)⟩
    rw [card_erase_of_mem ht, ← h.slots]
  | notifyAll c =>
    simp only [hc] at hsl hask haw
    simp only [Machine.step, hc, some.injEq] at hs
    subst hs
    refine ⟨owners, h.goOn (c := c) rfl ?_ hsl hask haw⟩
    funext u
    dsimp only
    by_cases hu : u = t
    · rw [hu, update_self, Code.Awake.wake_eq (c := c) haw]
    · rw [update_of_ne hu, Code.Awake.wake_eq (h.awake u)]

end Roomy

end Slots

/-- Where all threads are blocked, one of them sleeps or asks for a lock whose rank is
not above that of a lock it holds. -/
theorem Stuck.cycle {limit : ℕ} {lt : L → L → Prop} {s : Machine ι L} (hs : s.Stuck limit)
    (h : Disciplined lt s) (rank : L → ℕ) (top : ℕ) (htop : ∀ l, rank l ≤ top) :
    (∃ t l c, s.code t = .asleep l c) ∨
      ∃ t l m c, s.code t = .lock m c ∧ s.holder l = some t ∧ ¬ rank l < rank m := by
  by_contra hno
  push Not at hno
  obtain ⟨hawake, horder⟩ := hno
  -- the lock that a thread waits for has a lower rank than the one its holder waits for
  have hlock : ∀ n t l c, top - rank l < n → s.code t ≠ .lock l c := by
    intro n
    induction n with
    | zero => exact fun t l c hn => absurd hn (Nat.not_lt_zero _)
    | succ n ih =>
      intro t l c hn hc
      have ht : s.code t ≠ .done := by simp [hc]
      obtain ⟨_, _, hsleep⟩ | ⟨_, _, u, hc', hu⟩ := step_eq_none (hs.2 t) ht
      · exact hawake t _ _ hsleep
      · obtain ⟨rfl, -⟩ : l = _ ∧ c = _ := by simpa [hc] using hc'
        have hu' : s.code u ≠ .done := by
          intro he
          have := h.bracketed l u
          simp [he, Code.Bracketed, hu] at this
        obtain ⟨_, _, hsleep⟩ | ⟨m, d, _, hd, _⟩ := step_eq_none (hs.2 u) hu'
        · exact hawake u _ _ hsleep
        · have hlt := horder u l m d hd hu
          have hm := htop m
          exact ih u m d (by omega) hd
  obtain ⟨t, ht⟩ := hs.1
  rcases step_eq_none (hs.2 t) ht with ⟨l, c, hc⟩ | ⟨l, c, -, hc, -⟩
  · exact hawake t l c hc
  · exact hlock _ t l c (Nat.lt_succ_self _) hc

end Machine

end ZenFs.Library
