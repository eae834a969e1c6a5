import Mathlib.Data.List.Pairwise
import Mathlib.Tactic.IntervalCases

/-!
Moving many entries of a table, one after another, with undo by hand.

Every move asks an oracle whether its writes succeed. A move onto a free name that fails
is silently taken back; a move onto a taken name first clears that name, and is refused
when the clearing fails. The moves before it are then undone in their order.
`all_moved_iff` and `all_undone_iff` say when the loop does all or nothing.
-/

namespace ZenFs.Library.Moves

open List Option Function Nat Prod

variable {N H : Type}

def Apart (m m' : N × N) : Prop := m.1 ≠ m'.1 ∧ m.2 ≠ m'.2 ∧ m.1 ≠ m'.2 ∧ m'.1 ≠ m.2

/-- The moves of a list can be made in any order: their names are all different, and there
is an entry at each source. -/
structure Movable (L : List (N × N)) (T : N → Option H) : Prop where
  apart : L.Pairwise Apart
  self : ∀ m ∈ L, m.1 ≠ m.2
  source : ∀ m ∈ L, T m.1 ≠ none

instance : Std.Symm (Apart (N := N)) where
  symm _ _ h := ⟨h.1.symm, h.2.1.symm, h.2.2.2, h.2.2.1⟩

namespace Movable

variable {T : N → Option H} {m : N × N} {L A B : List (N × N)}

theorem tail (hL : Movable (m :: L) T) : Movable L T :=
  ⟨hL.apart.of_cons, fun m' hm' => hL.self m' (by simp [hm']),
    fun m' hm' => hL.source m' (by simp [hm'])⟩

theorem head (hL : Movable (m :: L) T) : ∀ m' ∈ L, Apart m m' :=
  (pairwise_cons.mp hL.apart).1

theorem left (hL : Movable (A ++ B) T) : Movable A T :=
  ⟨(pairwise_append.mp hL.apart).1, fun m hm => hL.self m (by simp [hm]),
    fun m hm => hL.source m (by simp [hm])⟩

theorem apart_of_append (hL : Movable (A ++ m :: B) T) : ∀ a ∈ A, Apart a m := fun a ha =>
  (pairwise_append.mp hL.apart).2.2 a ha m (by simp)

theorem congr {U : N → Option H} (hL : Movable L T) (h : ∀ m ∈ L, U m.1 = T m.1) : Movable L U :=
  ⟨hL.apart, hL.self, fun m hm => by rw [h m hm]; exact hL.source m hm⟩

theorem eq_or_apart (hL : Movable L T) {m' : N × N} (hm : m ∈ L) (hm' : m' ∈ L) :
    m' = m ∨ Apart m m' := by
  by_cases h : m' = m
  · exact .inl h
  · exact .inr (hL.apart.forall hm hm' (Ne.symm h))

end Movable

/-- The questions that all moves ask. -/
def questions (T : N → Option H) (L : List (N × N)) : ℕ :=
  (L.map fun m => if (T m.2).isNone then 1 else 2).sum

theorem questions_cons (T : N → Option H) (m : N × N) (L : List (N × N)) :
    questions T (m :: L) = (if (T m.2).isNone then 1 else 2) + questions T L := by
  simp [questions]

variable [DecidableEq N]

/-- The table `T` after the entry `h` has moved from one name to another. -/
def moved (T : N → Option H) (source dest : N) (h : H) : N → Option H :=
  Function.update (Function.update T source none) dest (some h)

section Moved

variable {T : N → Option H} {x y n : N} {h k : H}

theorem moved_dest : moved T x y h y = some h := by simp [moved]

theorem moved_source (hxy : x ≠ y) : moved T x y h x = none := by simp [moved, hxy]

theorem moved_of_ne (hx : n ≠ x) (hy : n ≠ y) : moved T x y h n = T n := by simp [moved, hx, hy]

theorem moved_eq_some (hy : T y = none) :
    moved T x y h n = some k ↔ (n = y ∧ k = h) ∨ (n ≠ x ∧ T n = some k) := by
  by_cases hn : n = y
  · subst hn
    simp [moved_dest, hy, eq_comm]
  · by_cases hx : n = x
    · subst hx
      simp [moved_source hn, hn]
    · simp [moved_of_ne hx hn, hx, hn]

theorem moved_clear (hy : T y = none) :
    update (moved T x y h) y none = update T x none := by
  rw [moved]
  by_cases hx : y = x <;> simp [hx, hy]

theorem moved_of_clear : moved (update T y none) x y h = moved T x y h := by
  by_cases hxy : y = x
  · rw [moved, moved, hxy, update_idem, update_idem]
  · rw [moved, moved, update_comm hxy, update_idem]

theorem moved_moved (hx : T x = some h) (hy : T y = none) :
    moved (moved T x y h) y x h = T := by
  rw [moved, moved_clear hy, update_idem, ← hx, update_eq_self]

theorem moved_comm {x' y' : N} {h' : H} (h₁ : x ≠ x') (h₂ : y ≠ y') (h₃ : x ≠ y') (h₄ : x' ≠ y) :
    moved (moved T x y h) x' y' h' = moved (moved T x' y' h') x y h := by
  simp only [moved]
  rw [update_comm h₄.symm, update_comm h₂, update_comm h₁, update_comm h₃]

end Moved

/-- How a move or a loop ends: whether it was accepted, the table, and the next question
to the oracle. -/
@[ext] structure Run (N H : Type) where
  ok : Bool
  table : N → Option H
  used : ℕ

variable (ok : ℕ → Bool)

def move (x y : N) (T : N → Option H) (p : ℕ) : Run N H :=
  match T x, T y with
  | none, _ => ⟨false, T, p⟩
  | some h, none => ⟨true, if ok p then moved T x y h else T, p + 1⟩
  | some h, some _ =>
    if ok p then ⟨true, if ok (p + 1) then moved T x y h else Function.update T y none, p + 2⟩
    else ⟨false, T, p + 1⟩

def run : List (N × N) → (N → Option H) → ℕ → Run N H
  | [], T, p => ⟨true, T, p⟩
  | m :: rest, T, p =>
    let r := move ok m.1 m.2 T p
    if r.ok then run rest r.table r.used else r

def undo (done : List (N × N)) : (N → Option H) → ℕ → Run N H := run ok (done.map Prod.swap)

def all : List (N × N) → List (N × N) → (N → Option H) → ℕ → Run N H
  | _, [], T, p => ⟨true, T, p⟩
  | done, m :: rest, T, p =>
    let r := move ok m.1 m.2 T p
    if r.ok then all (done ++ [m]) rest r.table r.used
    else { undo ok done r.table r.used with ok := false }

def moveOne (T : N → Option H) (m : N × N) : N → Option H :=
  match T m.1 with
  | none => T
  | some h => moved T m.1 m.2 h

def movedAll (T : N → Option H) (L : List (N × N)) : N → Option H := L.foldl moveOne T

section Move

variable {ok} {T : N → Option H} {x y n : N} {h : H} {p : ℕ}

theorem move_missing (hx : T x = none) : move ok x y T p = ⟨false, T, p⟩ := by
  simp [move, hx]

theorem move_free (hx : T x = some h) (hy : T y = none) :
    move ok x y T p = ⟨true, if ok p then moved T x y h else T, p + 1⟩ := by
  simp [move, hx, hy]

theorem move_taken {k : H} (hx : T x = some h) (hy : T y = some k) : move ok x y T p =
    if ok p then ⟨true, if ok (p + 1) then moved T x y h else update T y none, p + 2⟩
    else ⟨false, T, p + 1⟩ := by
  simp [move, hx, hy]

theorem move_refused (hx : T x ≠ none) (hr : (move ok x y T p).ok = false) :
    T y ≠ none ∧ ok p = false ∧ move ok x y T p = ⟨false, T, p + 1⟩ := by
  obtain ⟨h, hx⟩ := ne_none_iff_exists'.mp hx
  cases hy : T y with
  | none =>
    rw [move_free hx hy] at hr
    cases hr
  | some k =>
    rw [move_taken hx hy] at hr ⊢
    cases ho : ok p with
    | true => simp [ho] at hr
    | false => simp

theorem move_frame (hx : n ≠ x) (hy : n ≠ y) : (move ok x y T p).table n = T n := by
  cases hTx : T x with
  | none => rw [move_missing hTx]
  | some h =>
    cases hTy : T y with
    | none =>
      rw [move_free hTx hTy]
      split
      · exact moved_of_ne hx hy
      · rfl
    | some k =>
      rw [move_taken hTx hTy]
      split
      · dsimp only
        split
        · exact moved_of_ne hx hy
        · exact update_of_ne hy ..
      · rfl

end Move

/-- One of the two names of a move is free. -/
def Spent (T : N → Option H) (m : N × N) : Prop := T m.1 = none ∨ T m.2 = none

section Spent

variable {ok} {T : N → Option H} {x y : N} {p : ℕ}

theorem spent_of_move (hxy : x ≠ y) (hr : (move ok x y T p).ok = true) :
    Spent (move ok x y T p).table (x, y) := by
  cases hTx : T x with
  | none => simp [move_missing hTx] at hr
  | some h =>
    cases hTy : T y with
    | none =>
      rw [move_free hTx hTy]
      cases ok p
      · exact .inr hTy
      · exact .inl (moved_source hxy)
    | some k =>
      rw [move_taken hTx hTy] at hr ⊢
      cases ho : ok p with
      | false => simp [ho] at hr
      | true =>
        cases ok (p + 1)
        · exact .inr (by simp)
        · exact .inl (moved_source hxy)

theorem Spent.after_move (hxy : x ≠ y) (hT : Spent T (x, y)) :
    Spent (move ok x y T p).table (x, y) := by
  cases hr : (move ok x y T p).ok with
  | true => exact spent_of_move hxy hr
  | false =>
    cases hTx : T x with
    | none =>
      rw [move_missing hTx]
      exact hT
    | some h =>
      obtain ⟨-, -, heq⟩ := move_refused (by simp [hTx]) hr
      rw [heq]
      exact hT

end Spent

section Runs

variable {ok} {T : N → Option H} {n : N} {p : ℕ} {m : N × N} {L rest : List (N × N)}

theorem run_cons (hr : (move ok m.1 m.2 T p).ok = true) : run ok (m :: rest) T p =
    run ok rest (move ok m.1 m.2 T p).table (move ok m.1 m.2 T p).used := by
  simp [run, hr]

theorem run_cons_refused (hr : (move ok m.1 m.2 T p).ok = false) :
    run ok (m :: rest) T p = move ok m.1 m.2 T p := by
  simp [run, hr]

theorem run_keeps {I : (N → Option H) → Prop}
    (hI : ∀ m ∈ L, ∀ T p, I T → I (move ok m.1 m.2 T p).table) (hT : I T) :
    I (run ok L T p).table := by
  induction L generalizing T p with
  | nil => exact hT
  | cons m rest ih =>
    have hm := hI m (by simp) T p hT
    cases hr : (move ok m.1 m.2 T p).ok with
    | true =>
      rw [run_cons hr]
      exact ih (fun m' hm' => hI m' (by simp [hm'])) hm
    | false =>
      rw [run_cons_refused hr]
      exact hm

theorem run_frame (hn : ∀ m ∈ L, n ≠ m.1 ∧ n ≠ m.2) : (run ok L T p).table n = T n :=
  run_keeps (I := fun U => U n = T n)
    (fun m hm _ _ hU => (move_frame (hn m hm).1 (hn m hm).2).trans hU) rfl

theorem Spent.after_run (hself : m.1 ≠ m.2) (hL : ∀ m' ∈ L, m' = m ∨ m' = m.swap ∨ Apart m m')
    (hT : Spent T m) : Spent (run ok L T p).table m := by
  refine run_keeps (I := fun U => Spent U m) (fun m' hm' U q hU => ?_) hT
  rcases hL m' hm' with rfl | rfl | hap
  · exact hU.after_move hself
  · exact (Spent.after_move (Ne.symm hself) hU.symm).symm
  · have h₁ : (move ok m'.1 m'.2 U q).table m.1 = U m.1 := move_frame hap.1 hap.2.2.1
    have h₂ : (move ok m'.1 m'.2 U q).table m.2 = U m.2 := move_frame (Ne.symm hap.2.2.2) hap.2.1
    rw [Spent, h₁, h₂]
    exact hU

theorem run_append (hr : (run ok L T p).ok = true) :
    run ok (L ++ rest) T p = run ok rest (run ok L T p).table (run ok L T p).used := by
  induction L generalizing T p with
  | nil => rfl
  | cons m L ih =>
    cases hm : (move ok m.1 m.2 T p).ok with
    | false => simp [run_cons_refused hm, hm] at hr
    | true =>
      rw [run_cons hm] at hr
      rw [cons_append, run_cons hm, run_cons hm, ih hr]

/-- Either all moves of the loop are accepted, or one is refused after accepted ones. -/
theorem all_cases (ok : ℕ → Bool) (done L : List (N × N)) (T : N → Option H) (p : ℕ) :
    ((run ok L T p).ok = true ∧ all ok done L T p = run ok L T p) ∨
      ∃ A m B, L = A ++ m :: B ∧ (run ok A T p).ok = true ∧
        (move ok m.1 m.2 (run ok A T p).table (run ok A T p).used).ok = false ∧
        (all ok done L T p).ok = false ∧
        (all ok done L T p).table =
          (undo ok (done ++ A) (move ok m.1 m.2 (run ok A T p).table (run ok A T p).used).table
            (move ok m.1 m.2 (run ok A T p).table (run ok A T p).used).used).table := by
  induction L generalizing T p done with
  | nil => exact .inl ⟨rfl, rfl⟩
  | cons m L ih =>
    cases hm : (move ok m.1 m.2 T p).ok with
    | false =>
      refine .inr ⟨[], m, L, rfl, rfl, hm, ?_, ?_⟩
      · simp [all, hm]
      · simp [all, hm, run]
    | true =>
      have hstep : all ok done (m :: L) T p = all ok (done ++ [m]) L
          (move ok m.1 m.2 T p).table (move ok m.1 m.2 T p).used := by simp [all, hm]
      rw [hstep, run_cons hm]
      rcases ih (done ++ [m]) (move ok m.1 m.2 T p).table (move ok m.1 m.2 T p).used
        with hall | ⟨A, m', B, rfl, hA, hm', hok, htable⟩
      · exact .inl hall
      · refine .inr ⟨m :: A, m', B, rfl, ?_, ?_, hok, ?_⟩
        · rwa [run_cons hm]
        · rwa [run_cons hm]
        · rw [htable, run_cons hm]
          simp

end Runs

section AllSucceed

variable {ok} {T : N → Option H} {n : N} {p : ℕ} {m m' : N × N} {L : List (N × N)}

theorem moveOne_of_none (hm : T m.1 = none) : moveOne T m = T := by simp [moveOne, hm]

theorem moveOne_of_some {h : H} (hm : T m.1 = some h) : moveOne T m = moved T m.1 m.2 h := by
  simp [moveOne, hm]

theorem moveOne_of_ne (h₁ : n ≠ m.1) (h₂ : n ≠ m.2) : moveOne T m n = T n := by
  cases hm : T m.1 with
  | none => rw [moveOne_of_none hm]
  | some h => rw [moveOne_of_some hm, moved_of_ne h₁ h₂]

theorem moveOne_source (hself : m.1 ≠ m.2) : moveOne T m m.1 = none := by
  cases hm : T m.1 with
  | none => rw [moveOne_of_none hm, hm]
  | some h => rw [moveOne_of_some hm, moved_source hself]

theorem moveOne_dest (hsource : T m.1 ≠ none) : moveOne T m m.2 = T m.1 := by
  obtain ⟨h, hm⟩ := ne_none_iff_exists'.mp hsource
  rw [moveOne_of_some hm, moved_dest, hm]

theorem moveOne_apart (h : Apart m m') :
    moveOne T m m'.1 = T m'.1 ∧ moveOne T m m'.2 = T m'.2 :=
  ⟨moveOne_of_ne (Ne.symm h.1) h.2.2.2, moveOne_of_ne (Ne.symm h.2.2.1) (Ne.symm h.2.1)⟩

theorem moveOne_comm (h : Apart m m') :
    moveOne (moveOne T m) m' = moveOne (moveOne T m') m := by
  have h₁ : moveOne T m m'.1 = T m'.1 := (moveOne_apart h).1
  have h₂ : moveOne T m' m.1 = T m.1 := (moveOne_apart (Std.Symm.symm _ _ h)).1
  cases hm : T m.1 with
  | none => rw [moveOne_of_none hm, moveOne_of_none (h₂.trans hm)]
  | some k =>
    cases hm' : T m'.1 with
    | none => rw [moveOne_of_none hm', moveOne_of_none (h₁.trans hm')]
    | some k' =>
      rw [moveOne_of_some (h₁.trans hm'), moveOne_of_some (h₂.trans hm), moveOne_of_some hm,
        moveOne_of_some hm']
      exact moved_comm h.1 h.2.1 h.2.2.1 h.2.2.2

theorem move_yes (hm : T m.1 ≠ none)
    (hok : ∀ j < if (T m.2).isNone then 1 else 2, ok (p + j) = true) :
    move ok m.1 m.2 T p = ⟨true, moveOne T m, p + if (T m.2).isNone then 1 else 2⟩ := by
  obtain ⟨h, hx⟩ := ne_none_iff_exists'.mp hm
  cases hy : T m.2 with
  | none =>
    have h₀ : ok p = true := by simpa using hok 0 (by simp [hy])
    rw [move_free hx hy]
    simp [h₀, moveOne, hx]
  | some k =>
    have h₀ : ok p = true := by simpa using hok 0 (by simp [hy])
    have h₁ : ok (p + 1) = true := hok 1 (by simp [hy])
    rw [move_taken hx hy]
    simp [h₀, h₁, moveOne, hx]

theorem yes_of_move (hm : T m.1 ≠ none) (hself : m.1 ≠ m.2)
    (hr : (move ok m.1 m.2 T p).ok = true) (hgone : (move ok m.1 m.2 T p).table m.1 = none) :
    ∀ j < if (T m.2).isNone then 1 else 2, ok (p + j) = true := by
  obtain ⟨h, hx⟩ := ne_none_iff_exists'.mp hm
  cases hy : T m.2 with
  | none =>
    rw [move_free hx hy] at hgone
    cases h₀ : ok p with
    | false => simp [h₀, hx] at hgone
    | true =>
      intro j hj
      obtain rfl : j = 0 := by simpa using hj
      exact h₀
  | some k =>
    rw [move_taken hx hy] at hr hgone
    cases h₀ : ok p with
    | false => simp [h₀] at hr
    | true =>
      cases h₁ : ok (p + 1) with
      | false => simp [h₀, h₁, hself, hx] at hgone
      | true =>
        intro j hj
        have : j < 2 := by simpa using hj
        interval_cases j
        · exact h₀
        · exact h₁

theorem Movable.moveOne (hL : Movable (m :: L) T) :
    Movable L (moveOne T m) ∧ questions (moveOne T m) L = questions T L := by
  refine ⟨hL.tail.congr fun m' hm' => (moveOne_apart (hL.head m' hm')).1, ?_⟩
  unfold questions
  congr 1
  refine map_congr_left fun m' hm' => ?_
  rw [(moveOne_apart (hL.head m' hm')).2]

theorem run_yes (hL : Movable L T) (hok : ∀ j < questions T L, ok (p + j) = true) :
    run ok L T p = ⟨true, movedAll T L, p + questions T L⟩ := by
  induction L generalizing T p with
  | nil => simp [run, movedAll, questions]
  | cons m L ih =>
    rw [questions_cons] at hok ⊢
    have hm := move_yes (hL.source m (by simp)) fun j hj => hok j (by omega)
    obtain ⟨hL', hq⟩ := hL.moveOne
    rw [run_cons (by rw [hm]), hm, ih hL' fun j hj => by
      rw [add_assoc]
      exact hok _ (by omega), hq, add_assoc]
    rfl

theorem movedAll_of_ne (hn : ∀ m ∈ L, n ≠ m.1 ∧ n ≠ m.2) : movedAll T L n = T n := by
  induction L generalizing T with
  | nil => rfl
  | cons m L ih =>
    obtain ⟨h₁, h₂⟩ := hn m (by simp)
    exact (ih fun m' hm' => hn m' (by simp [hm'])).trans (moveOne_of_ne h₁ h₂)

theorem movedAll_move (hL : Movable L T) (hm : m ∈ L) :
    movedAll T L m.1 = none ∧ movedAll T L m.2 = T m.1 := by
  induction L generalizing T with
  | nil => simp at hm
  | cons m' L ih =>
    obtain ⟨hL', -⟩ := hL.moveOne
    show movedAll (Moves.moveOne T m') L m.1 = none ∧ movedAll (Moves.moveOne T m') L m.2 = T m.1
    rcases mem_cons.mp hm with rfl | hm
    · have hap := hL.head
      rw [movedAll_of_ne fun a ha => ⟨(hap a ha).1, (hap a ha).2.2.1⟩,
        movedAll_of_ne fun a ha => ⟨Ne.symm (hap a ha).2.2.2, (hap a ha).2.1⟩]
      exact ⟨moveOne_source (hL.self m (by simp)), moveOne_dest (hL.source m (by simp))⟩
    · obtain ⟨hsource, hdest⟩ := ih hL' hm
      exact ⟨hsource, hdest.trans (moveOne_apart (hL.head m hm)).1⟩

theorem yes_of_run (hL : Movable L T) (hr : (run ok L T p).ok = true)
    (hgone : ∀ m ∈ L, (run ok L T p).table m.1 = none) :
    ∀ j < questions T L, ok (p + j) = true := by
  induction L generalizing T p with
  | nil => simp [questions]
  | cons m L ih =>
    cases hm : (move ok m.1 m.2 T p).ok with
    | false =>
      rw [run_cons_refused hm, hm] at hr
      cases hr
    | true =>
      have hrun : run ok (m :: L) T p =
          run ok L (move ok m.1 m.2 T p).table (move ok m.1 m.2 T p).used := run_cons hm
      have hkeep : (run ok (m :: L) T p).table m.1 = (move ok m.1 m.2 T p).table m.1 := by
        rw [hrun]
        exact run_frame fun m' hm' => ⟨(hL.head m' hm').1, (hL.head m' hm').2.2.1⟩
      have hyes := yes_of_move (hL.source m (by simp)) (hL.self m (by simp)) hm
        (hkeep ▸ hgone m (by simp))
      have hmove := move_yes (hL.source m (by simp)) hyes
      obtain ⟨hL', hq⟩ := hL.moveOne
      rw [hrun, hmove] at hr hgone
      have hrest := ih hL' hr fun m' hm' => hgone m' (by simp [hm'])
      intro j hj
      rw [questions_cons] at hj
      by_cases hlt : j < if (T m.2).isNone then 1 else 2
      · exact hyes j hlt
      · obtain ⟨i, rfl⟩ := Nat.exists_eq_add_of_le (Nat.le_of_not_lt hlt)
        rw [← add_assoc]
        exact hrest i (by omega)

end AllSucceed

/-- The table after the moves of a list onto free names, each of which may fail. -/
def partly (ok : ℕ → Bool) : List (N × N) → (N → Option H) → ℕ → N → Option H
  | [], T, _ => T
  | m :: L, T, p => partly ok L (if ok p then moveOne T m else T) (p + 1)

/-- With `len` moves asked about from `p` on and undone from `q` on: the moves that were
made are the first ones, and each of them is undone. -/
def Reverts (ok : ℕ → Bool) (len p q : ℕ) : Prop :=
  ∃ i ≤ len, (∀ j < i, ok (p + j) = true) ∧ (∀ j, i ≤ j → j < len → ok (p + j) = false) ∧
    ∀ j < i, ok (q + j) = true

section Undo

variable {ok} {T : N → Option H} {n : N} {p q : ℕ} {m : N × N} {L : List (N × N)}

theorem reverts_zero : Reverts ok 0 p q := ⟨0, by simp, by simp, by simp, by simp⟩

theorem reverts_succ_yes {len : ℕ} (hp : ok p = true) :
    Reverts ok (len + 1) p q ↔ ok q = true ∧ Reverts ok len (p + 1) (q + 1) := by
  constructor
  · rintro ⟨i, hi, hyes, hno, hback⟩
    cases i with
    | zero =>
      have := hno 0 (le_refl _) (succ_pos _)
      rw [add_zero, hp] at this
      cases this
    | succ i =>
      refine ⟨hback 0 (succ_pos _), i, by omega, ?_, ?_, ?_⟩
      · intro j hj
        rw [add_assoc]
        exact hyes _ (by omega)
      · intro j hij hj
        rw [add_assoc]
        exact hno _ (by omega) (by omega)
      · intro j hj
        rw [add_assoc]
        exact hback _ (by omega)
  · rintro ⟨hq, i, hi, hyes, hno, hback⟩
    refine ⟨i + 1, by omega, ?_, ?_, ?_⟩
    · intro j hj
      cases j with
      | zero => exact hp
      | succ j =>
        rw [add_comm j, ← add_assoc]
        exact hyes j (by omega)
    · intro j hij hj
      obtain ⟨j, rfl⟩ : ∃ k, j = k + 1 := ⟨j - 1, by omega⟩
      rw [add_comm j, ← add_assoc]
      exact hno j (by omega) (by omega)
    · intro j hj
      cases j with
      | zero => exact hq
      | succ j =>
        rw [add_comm j, ← add_assoc]
        exact hback j (by omega)

theorem reverts_no {len : ℕ} (hp : ok p = false) :
    Reverts ok (len + 1) p q ↔ ∀ j < len, ok (p + 1 + j) = false := by
  constructor
  · rintro ⟨i, hi, hyes, hno, -⟩ j hj
    cases i with
    | zero =>
      rw [add_assoc]
      exact hno _ (zero_le _) (by omega)
    | succ i =>
      have := hyes 0 (succ_pos _)
      rw [add_zero, hp] at this
      cases this
  · intro h
    refine ⟨0, zero_le _, by simp, fun j _ hj => ?_, by simp⟩
    cases j with
    | zero => exact hp
    | succ j =>
      rw [add_comm j, ← add_assoc]
      exact h j (by omega)

theorem partly_of_ne (hn : ∀ m ∈ L, n ≠ m.1 ∧ n ≠ m.2) : partly ok L T p n = T n := by
  induction L generalizing T p with
  | nil => rfl
  | cons m L ih =>
    rw [partly, ih fun m' hm' => hn m' (by simp [hm'])]
    split
    · exact moveOne_of_ne (hn m (by simp)).1 (hn m (by simp)).2
    · rfl

/-- A move made first might as well be made last. -/
theorem partly_moveOne (hm : ∀ m' ∈ L, Apart m m') :
    partly ok L (moveOne T m) p = moveOne (partly ok L T p) m := by
  induction L generalizing T p with
  | nil => rfl
  | cons m' L ih =>
    have hrest : ∀ a ∈ L, Apart m a := fun a ha => hm a (by simp [ha])
    rw [partly, partly]
    split
    · rw [moveOne_comm (hm m' (by simp)), ih hrest]
    · exact ih hrest

theorem run_free (hL : Movable L T) (hfree : ∀ m ∈ L, T m.2 = none) :
    run ok L T p = ⟨true, partly ok L T p, p + L.length⟩ := by
  induction L generalizing T p with
  | nil => rfl
  | cons m L ih =>
    obtain ⟨h, hx⟩ := ne_none_iff_exists'.mp (hL.source m (by simp))
    have hmove : move ok m.1 m.2 T p = ⟨true, if ok p then moved T m.1 m.2 h else T, p + 1⟩ :=
      move_free hx (hfree m (by simp))
    have hU : ∀ m' ∈ L, (if ok p then moveOne T m else T) m'.1 = T m'.1 ∧
        (if ok p then moveOne T m else T) m'.2 = T m'.2 := by
      intro m' hm'
      split
      · exact moveOne_apart (hL.head m' hm')
      · exact ⟨rfl, rfl⟩
    rw [run_cons (by rw [hmove]), hmove]
    rw [← moveOne_of_some hx, ih (hL.tail.congr fun m' hm' => (hU m' hm').1)
      fun m' hm' => (hU m' hm').2.trans (hfree m' (by simp [hm']))]
    simp only [length_cons]
    congr 1
    omega

theorem partly_eq_self (hL : Movable L T) :
    partly ok L T p = T ↔ ∀ j < L.length, ok (p + j) = false := by
  induction L generalizing T p with
  | nil => simp [partly]
  | cons m L ih =>
    cases hp : ok p with
    | true =>
      refine iff_of_false (fun heq => ?_) fun h => by simpa [hp] using h 0 (by simp)
      have : partly ok (m :: L) T p m.1 = none := by
        simp only [partly, hp, if_true]
        rw [partly_moveOne hL.head, moveOne_source (hL.self m (by simp))]
      rw [heq] at this
      exact hL.source m (by simp) this
    | false =>
      simp only [partly, hp, Bool.false_eq_true, if_false]
      rw [ih hL.tail]
      constructor
      · intro h j hj
        cases j with
        | zero => exact hp
        | succ j =>
          rw [add_comm j, ← add_assoc]
          exact h j (by simpa using hj)
      · intro h j hj
        rw [add_assoc, add_comm 1]
        exact h _ (by simpa using hj)

/-- Undoing moves onto free names gives the old table back just when the moves that were
made are the first ones and each of them is undone. -/
theorem undo_eq_self (hL : Movable L T) (hfree : ∀ m ∈ L, T m.2 = none) :
    (undo ok L (partly ok L T p) q).table = T ↔ Reverts ok L.length p q := by
  induction L generalizing T p q with
  | nil => exact iff_of_true rfl reverts_zero
  | cons m L ih =>
    obtain ⟨h, hx⟩ := ne_none_iff_exists'.mp (hL.source m (by simp))
    have hself := hL.self m (by simp)
    have hdest := hfree m (by simp)
    -- the moves after the first do not touch its names
    have hsource : partly ok L T (p + 1) m.1 = some h := by
      rw [partly_of_ne fun m' hm' => ⟨(hL.head m' hm').1, (hL.head m' hm').2.2.1⟩, hx]
    have hfree' : partly ok L T (p + 1) m.2 = none := by
      rw [partly_of_ne fun m' hm' => ⟨Ne.symm (hL.head m' hm').2.2.2, (hL.head m' hm').2.1⟩, hdest]
    cases hp : ok p with
    | true =>
      have hpart : partly ok (m :: L) T p = moved (partly ok L T (p + 1)) m.1 m.2 h := by
        simp only [partly, hp, if_true]
        rw [partly_moveOne hL.head, moveOne_of_some hsource]
      have hmove : move ok m.2 m.1 (partly ok (m :: L) T p) q =
          ⟨true, if ok q then partly ok L T (p + 1) else partly ok (m :: L) T p, q + 1⟩ := by
        rw [hpart, move_free moved_dest (moved_source hself), moved_moved hsource hfree']
      have hundo : undo ok (m :: L) (partly ok (m :: L) T p) q =
          undo ok L (if ok q then partly ok L T (p + 1) else partly ok (m :: L) T p) (q + 1) := by
        rw [undo, map_cons, run_cons (by rw [fst_swap, snd_swap, hmove]),
          fst_swap, snd_swap, hmove]
        rfl
      rw [hundo, length_cons, reverts_succ_yes hp]
      cases hq : ok q with
      | true =>
        simp only [true_and]
        exact ih hL.tail fun m' hm' => hfree m' (by simp [hm'])
      | false =>
        -- a move that is not undone stays
        simp only [Bool.false_eq_true, if_false, false_and, iff_false]
        intro heq
        have hkeep : (undo ok L (partly ok (m :: L) T p) (q + 1)).table m.1 = none := by
          rw [undo, run_frame, hpart, moved_source hself]
          intro m' hm'
          obtain ⟨a, ha, rfl⟩ := mem_map.mp hm'
          exact ⟨(hL.head a ha).2.2.1, (hL.head a ha).1⟩
        rw [heq, hx] at hkeep
        cases hkeep
    | false =>
      have hpart : partly ok (m :: L) T p = partly ok L T (p + 1) := by
        simp only [partly, hp, Bool.false_eq_true, if_false]
      have hundo : (undo ok (m :: L) (partly ok (m :: L) T p) q).table = partly ok L T (p + 1) := by
        rw [undo, map_cons, run_cons_refused, fst_swap, hpart,
          move_missing hfree']
        rw [fst_swap, hpart, move_missing hfree']
      rw [hundo, length_cons, reverts_no hp, partly_eq_self hL.tail]

/-- A move onto a taken name is refused after moves onto free names, and undoing those
that were made gives the old table back. -/
def Undone (ok : ℕ → Bool) (T : N → Option H) (L : List (N × N)) (p : ℕ) : Prop :=
  ∃ A m B, L = A ++ m :: B ∧ (∀ a ∈ A, T a.2 = none) ∧ T m.2 ≠ none ∧
    ok (p + A.length) = false ∧ Reverts ok A.length p (p + A.length + 1)

theorem spent_of_run (hL : Movable L T) (hr : (run ok L T p).ok = true) (hm : m ∈ L) :
    Spent (run ok L T p).table m := by
  induction L generalizing T p with
  | nil => simp at hm
  | cons m' L ih =>
    cases hm' : (move ok m'.1 m'.2 T p).ok with
    | false =>
      rw [run_cons_refused hm', hm'] at hr
      cases hr
    | true =>
      rw [run_cons hm'] at hr ⊢
      rcases mem_cons.mp hm with rfl | hm
      · have hself := hL.self m (by simp)
        exact (spent_of_move hself hm').after_run hself fun a ha => .inr (.inr (hL.head a ha))
      · refine ih (hL.tail.congr fun a ha => ?_) hr hm
        exact move_frame (Ne.symm (hL.head a ha).1) (hL.head a ha).2.2.2

theorem refused_of_taken {A B : List (N × N)} (hL : Movable (A ++ m :: B) T)
    (hfree : ∀ a ∈ A, T a.2 = none) (htaken : T m.2 ≠ none) (hno : ok (p + A.length) = false) :
    (run ok (A ++ m :: B) T p).ok = false := by
  have hrun : run ok A T p = ⟨true, partly ok A T p, p + A.length⟩ := run_free hL.left hfree
  have hap := hL.apart_of_append
  obtain ⟨h, hx⟩ := ne_none_iff_exists'.mp (hL.source m (by simp))
  obtain ⟨k, hy⟩ := ne_none_iff_exists'.mp htaken
  have hx' : partly ok A T p m.1 = some h := by
    rw [partly_of_ne fun a ha => ⟨Ne.symm (hap a ha).1, (hap a ha).2.2.2⟩, hx]
  have hy' : partly ok A T p m.2 = some k := by
    rw [partly_of_ne fun a ha => ⟨Ne.symm (hap a ha).2.2.1, Ne.symm (hap a ha).2.1⟩, hy]
  have hrefused : move ok m.1 m.2 (partly ok A T p) (p + A.length) =
      ⟨false, partly ok A T p, p + A.length + 1⟩ := by
    rw [move_taken hx' hy', hno]
    rfl
  rw [run_append (by rw [hrun]), hrun, run_cons_refused (by rw [hrefused]), hrefused]

/-- When a move is refused, undoing those before it restores the table just if `Undone`. -/
theorem refused_iff (hL : Movable L T) {A B : List (N × N)} (hAB : L = A ++ m :: B)
    (hA : (run ok A T p).ok = true)
    (hm : (move ok m.1 m.2 (run ok A T p).table (run ok A T p).used).ok = false)
    {U : N → Option H} (hU : U = (undo ok A
      (move ok m.1 m.2 (run ok A T p).table (run ok A T p).used).table
      (move ok m.1 m.2 (run ok A T p).table (run ok A T p).used).used).table) :
    U = T ↔ Undone ok T L p := by
  subst hAB
  have hap := hL.apart_of_append
  -- the moves of before have not touched the names of the refused one
  have hsource : (run ok A T p).table m.1 = T m.1 :=
    run_frame fun a ha => ⟨Ne.symm (hap a ha).1, (hap a ha).2.2.2⟩
  have hdest : (run ok A T p).table m.2 = T m.2 :=
    run_frame fun a ha => ⟨Ne.symm (hap a ha).2.2.1, Ne.symm (hap a ha).2.1⟩
  obtain ⟨htaken, hno, hmove⟩ := move_refused (by rw [hsource]; exact hL.source m (by simp)) hm
  rw [hdest] at htaken
  rw [hmove] at hU
  constructor
  · intro hUT
    have hfree : ∀ a ∈ A, T a.2 = none := by
      intro a ha
      have hself := hL.left.self a ha
      have hspent : Spent U a := by
        rw [hU]
        refine (spent_of_run hL.left hA ha).after_run hself fun m' hm' => ?_
        obtain ⟨c, hc, rfl⟩ := mem_map.mp hm'
        rcases hL.left.eq_or_apart ha hc with rfl | hac
        · exact .inr (.inl rfl)
        · exact .inr (.inr ⟨hac.2.2.1, hac.2.2.2.symm, hac.1, hac.2.1.symm⟩)
      rw [hUT] at hspent
      exact hspent.resolve_left (hL.left.source a ha)
    rw [run_free hL.left hfree] at hno hU
    refine ⟨A, m, B, rfl, hfree, htaken, hno, ?_⟩
    rw [← undo_eq_self hL.left hfree, ← hU]
    exact hUT
  · rintro ⟨A', m', B', heq, hfree, htaken', hno', hrev⟩
    obtain rfl : A = A' := by
      rcases append_eq_append_iff.mp heq with ⟨C, rfl, hC⟩ | ⟨C, rfl, hC⟩
      · cases C with
        | nil => simp
        | cons c C =>
          obtain ⟨rfl, -⟩ := List.cons.inj hC
          exact absurd (hfree m (by simp)) htaken
      · cases C with
        | nil => simp
        | cons c C =>
          obtain ⟨rfl, -⟩ := List.cons.inj hC
          -- a refused move cannot be among the accepted ones
          rw [refused_of_taken hL.left hfree htaken' hno'] at hA
          cases hA
    rw [hU, run_free hL.left hfree, undo_eq_self hL.left hfree]
    exact hrev

theorem all_single (m : N × N) (T : N → Option H) (p : ℕ) :
    all ok [] [m] T p = move ok m.1 m.2 T p := by
  show (if (move ok m.1 m.2 T p).ok then _ else _) = _
  split
  case isTrue hr => exact Run.ext hr.symm rfl rfl
  case isFalse hr => exact Run.ext (by simpa using hr) rfl rfl

theorem all_yes (hL : Movable L T) (h : ∀ j < questions T L, ok (p + j) = true) :
    all ok [] L T p = ⟨true, movedAll T L, p + questions T L⟩ := by
  have hrun := run_yes hL h
  rcases all_cases ok [] L T p with ⟨-, heq⟩ | ⟨A, m, B, hAB, hA, hm, -, -⟩
  · rw [heq, hrun]
  · have hrefused : (run ok L T p).ok = false := by
      rw [hAB, run_append hA, run_cons_refused hm, hm]
    rw [hrun] at hrefused
    cases hrefused

theorem all_moved_iff (hL : Movable L T) :
    ((all ok [] L T p).ok = true ∧ (all ok [] L T p).table = movedAll T L) ↔
      ∀ j < questions T L, ok (p + j) = true := by
  constructor
  · rintro ⟨hall, htable⟩
    rcases all_cases ok [] L T p with ⟨hok, heq⟩ | ⟨A, m, B, -, -, -, hno, -⟩
    · refine yes_of_run hL hok fun m hm => ?_
      rw [← heq, htable]
      exact (movedAll_move hL hm).1
    · rw [hall] at hno
      cases hno
  · intro h
    rw [all_yes hL h]
    exact ⟨rfl, rfl⟩

theorem all_undone_iff (hL : Movable L T) :
    ((all ok [] L T p).ok = false ∧ (all ok [] L T p).table = T) ↔ Undone ok T L p := by
  rcases all_cases ok [] L T p with ⟨hok, heq⟩ | ⟨A, m, B, hAB, hA, hm, hok, htable⟩
  · rw [heq, hok]
    refine iff_of_false (fun h => Bool.noConfusion h.1) ?_
    rintro ⟨A, m, B, rfl, hfree, htaken, hno, -⟩
    rw [refused_of_taken hL hfree htaken hno] at hok
    cases hok
  · rw [← refused_iff hL hAB hA hm htable]
    exact and_iff_right hok

end Undo

end ZenFs.Library.Moves
