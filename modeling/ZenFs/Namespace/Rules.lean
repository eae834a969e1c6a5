import ZenFs.Model.Namespace

/-!
Rules for the combinators that the operations are written with: what a program that
publishes, returns early or holds a reference ends in, and what it keeps.
-/

namespace ZenFs

open Library

variable {I : State → Prop}

section Rules

variable {s : State} {m rest : FsProg Status} {Q : Status → State → Prop}
  {f : State → Status × State}

theorem publish_result :
    (publish f s).result = some (f s) := rfl

theorem ends_publish (h : Q (f s).1 (f s).2) :
    Ends (publish f) s Q :=
  .bind (.act (.bind (.emit (.pure h))))

theorem ends_orReturn
    (hm : Ends m s fun st t => (st.ok = true → Ends rest t Q) ∧ (st.ok = false → Q st t)) :
    Ends (orReturn m rest) s Q := by
  refine .bind (hm.mono fun st t hst => ?_)
  cases hok : st.ok with
  | true => simpa [hok] using hst.1 hok
  | false => exact .pure (hst.2 hok)

theorem ends_holding (h : Option Handle)
    (hm : Ends m s fun st t => Q st (h.elim t t.release)) : Ends (holding h m) s Q := by
  refine .bind (hm.mono fun st t hst => ?_)
  cases h with
  | none => exact .pure hst
  | some h => exact .bind (.modify (.bind (.emit (.pure hst))))

theorem returns_publish (h : Q (f s).1 (f s).2) :
    Returns (publish f) s Q :=
  .bind (.act (.bind (.emit (.pure h))))

theorem returns_orReturn
    (hm : Returns m s fun st t => (st.ok = true → Returns rest t Q) ∧ (st.ok = false → Q st t)) :
    Returns (orReturn m rest) s Q := by
  refine .bind (hm.mono fun st t hst => ?_)
  cases hok : st.ok with
  | true => simpa [hok] using hst.1 hok
  | false => exact .pure (hst.2 hok)

theorem returns_holding (h : Option Handle)
    (hm : Returns m s fun st t => Q st (h.elim t t.release)) : Returns (holding h m) s Q := by
  refine .bind (hm.mono fun st t hst => ?_)
  cases h with
  | none => exact .pure hst
  | some h => exact .bind (.modify (.bind (.emit (.pure hst))))

theorem keeps_publish (hf : ∀ s, I s → I (f s).2) :
    Keeps I (publish f) := fun s hs => ends_publish (hf s hs)

theorem ends_orReturn_keeps (hm : Ends m s fun _ => I) (hrest : Keeps I rest) :
    Ends (orReturn m rest) s fun _ => I :=
  ends_orReturn (hm.mono fun _ t ht => ⟨fun _ => hrest t ht, fun _ => ht⟩)

theorem keeps_orReturn (hm : Keeps I m) (hrest : Keeps I rest) : Keeps I (orReturn m rest) :=
  fun s hs => ends_orReturn_keeps (hm s hs) hrest

theorem keeps_holding (hrel : ∀ s h, I s → I (State.release s h)) (h : Option Handle)
    (hm : Keeps I m) : Keeps I (holding h m) := by
  refine fun s hs => ends_holding h ((hm s hs).mono fun _ t ht => ?_)
  cases h with
  | none => exact ht
  | some h => exact hrel t h ht

theorem keeps_forEach {α : Type} {body : α → FsProg Status} {l : List α}
    (hbody : ∀ a ∈ l, Keeps I (body a)) : Keeps I (forEach body l) := by
  induction l with
  | nil => exact .pure _
  | cons a rest ih =>
    refine (hbody a (by simp)).bind fun st => ?_
    cases st.ok
    · exact .pure _
    · exact ih fun b hb => hbody b (by simp [hb])

theorem keeps_resetUnusedIOZones {e : Env}
    (hI : ∀ s t : State, I s → t.cat = s.cat → t.log = s.log → I t) :
    Keeps I (resetUnusedIOZones e) := by
  refine keeps_forEach fun z _ => ?_
  refine (Keeps.read id).bind fun s => ?_
  split
  · refine (Keeps.modify fun t ht => ?_).bind fun _ => Keeps.emit.bind fun _ => Keeps.pure _
    dsimp only
    split
    · exact hI t _ ht rfl rfl
    · split
      · exact hI t _ ht rfl rfl
      · exact hI t _ ht rfl rfl
  · exact .pure _

/-- If every reset succeeds the loop does, and the names and the log stay as they are. -/
theorem returns_resetUnusedIOZones {e : Env} (hreset : ∀ n, (e.reset n).ok = true) (s : State) :
    Returns (resetUnusedIOZones e) s fun st t =>
      st.ok = true ∧ t.cat = s.cat ∧ t.log = s.log ∧ t.persists = s.persists := by
  unfold resetUnusedIOZones
  generalize List.range e.nrZones = l
  induction l generalizing s with
  | nil => exact .pure ⟨rfl, rfl, rfl, rfl⟩
  | cons z rest ih =>
    have hround : Returns (resetUnusedIOZone e z) s fun st t =>
        st.ok = true ∧ t.cat = s.cat ∧ t.log = s.log ∧ t.persists = s.persists := by
      refine .bind (.read ?_)
      split
      · refine .bind (.modify (.bind (.emit (.pure ⟨hreset _, ?_⟩))))
        dsimp only
        split
        · exact ⟨rfl, rfl, rfl⟩
        · split <;> exact ⟨rfl, rfl, rfl⟩
      · exact .pure ⟨rfl, rfl, rfl, rfl⟩
    refine .bind (hround.mono ?_)
    rintro st t ⟨hok, hcat, hlog, hp⟩
    rw [hok]
    exact (ih t).mono fun st u hu =>
      ⟨hu.1, hu.2.1.trans hcat, hu.2.2.1.trans hlog, hu.2.2.2.trans hp⟩

end Rules

end ZenFs
