import ZenFs.Namespace.Logged
import ZenFs.Namespace.Rules

/-!
Renaming files and directories, read as moves of a table of names.

The oracle of `Library.Moves` answers as the metadata writes end. A file rename is one
move, the rename of a directory is the loop of moves with its undo, for every outcome.
-/

namespace ZenFs

open Library List Option

variable {K' K₁ K₂ : Handle → Name → Prop} {a b m x y : Name} {e : Env} {h : Handle}
variable {ids : Handle → Option ℕ} {r₁ r₂ : Moves.Run Name Handle} {s : State} {st₁ st₂ : Status}

def Env.oks (e : Env) (n : ℕ) : Bool := (e.persist n).ok

/-- The files and names that the moves of `L` are about: the file that is moved, and the
file that its new name led to. -/
def Touches (T : Name → Option Handle) (L : List (Name × Name)) (k : Handle) (n : Name) : Prop :=
  ∃ m ∈ L, T m.1 = some k ∨ (T m.1 ≠ none ∧ T m.2 = some k ∧ n = m.2)

/-- The state `t` is what a loop of moves that ends as `r` leaves of `s`. If all metadata
writes on the way succeeded, the log is right about what was moved, and still right about
everything else. -/
structure MovedTo (e : Env) (ids : Handle → Option ℕ) (s : State) (K : Handle → Name → Prop)
    (r : Moves.Run Name Handle) (st : Status) (t : State) : Prop where
  follows : Names.Follows s.names t.names
  ok : st.ok = r.ok
  files : t.names.files = r.table
  persists : t.persists = r.used
  le : s.persists ≤ t.persists
  right : (∀ j, s.persists ≤ j → j < t.persists → e.oks j = true) →
    ∀ k id n, ids k = some id → (K k n ∨ RightAbout s k id n) → RightAbout t k id n

namespace MovedTo

variable {t u : State} {K : Handle → Name → Prop} {r : Moves.Run Name Handle} {st : Status}

theorem release (hr : MovedTo e ids s K r st t)
    (hm : s.names.files m = some h) : MovedTo e ids s K r st (t.release h) := by
  obtain ⟨hfollows, hfiles⟩ := State.release_follows hr.follows hm
  have hpersists : (t.release h).persists = t.persists := by
    unfold State.release
    split <;> rfl
  have hlog : (t.release h).log = t.log := by
    unfold State.release
    split <;> rfl
  refine ⟨hfollows, hr.ok, hfiles.trans hr.files, hpersists.trans hr.persists,
    hpersists ▸ hr.le, fun hok k id n hk hK => ?_⟩
  exact (hr.right (hpersists ▸ hok) k id n hk hK).congr hlog hfiles

theorem refl (ht : s.names.Tidy) (st : Status) :
    MovedTo e ids s (fun _ _ => False) ⟨st.ok, s.names.files, s.persists⟩ st s :=
  ⟨ht.follows_self, rfl, rfl, rfl, le_refl _, fun _ _ _ _ _ hK => hK.resolve_left False.elim⟩

theorem mono (hr : MovedTo e ids s K r st t)
    (hK : ∀ k n, K' k n → K k n) : MovedTo e ids s K' r st t :=
  ⟨hr.follows, hr.ok, hr.files, hr.persists, hr.le, fun hall k id n hk hor =>
    hr.right hall k id n hk (hor.imp_left (hK k n))⟩

theorem trans (h₁ : MovedTo e ids s K₁ r₁ st₁ t) (h₂ : MovedTo e ids t K₂ r₂ st₂ u)
    (hK : ∀ k n, K k n → K₁ k n ∨ K₂ k n) : MovedTo e ids s K r₂ st₂ u := by
  refine ⟨h₁.follows.trans h₂.follows, h₂.ok, h₂.files, h₂.persists, h₁.le.trans h₂.le,
    fun hall k id n hk hor => ?_⟩
  have hright₁ := h₁.right fun j hj hlt => hall j hj (hlt.trans_le h₂.le)
  refine h₂.right (fun j hj => hall j (h₁.le.trans hj)) k id n hk ?_
  rcases hor with hor | hor
  · exact (hK k n hor).symm.imp_right fun hor => hright₁ k id n hk (.inl hor)
  · exact .inr (hright₁ k id n hk (.inr hor))

theorem congr (hr : MovedTo e ids s K r st t) (hcat : u.cat = t.cat) (hlog : u.log = t.log)
    (hpersists : u.persists = t.persists) : MovedTo e ids s K r st u := by
  have hnames : u.names = t.names := State.names_congr hcat
  exact ⟨hnames ▸ hr.follows, hr.ok, hnames ▸ hr.files, hpersists.trans hr.persists,
    hpersists ▸ hr.le, fun hall k id n hk hK =>
      (hr.right (hpersists ▸ hall) k id n hk hK).congr hlog (hnames ▸ rfl)⟩

end MovedTo

section File

theorem movedTo_file (ht : s.names.Tidy) (hids : HasIds ids s.names)
    (hx : s.names.files x = some h) (hxy : x ≠ y) :
    let d := s.deleteExisting e y
    let r := d.2.renameTo e h x y
    MovedTo e ids s (Touches s.names.files [(x, y)])
      (Moves.move e.oks x y s.names.files s.persists)
      (if d.1.ok then r.1 else d.1) (if d.1.ok then r.2 else d.2) := by
  cases hy : s.names.files y with
  | none =>
    have hd : s.deleteExisting e y = (.OK, s) := by
      simp only [State.deleteExisting, show s.getFile y = none from hy]
    obtain ⟨hok, hpersists, hfollows, hfiles⟩ := State.renameTo_names ht hx hy
    simp only [hd, Status.ok_OK, if_true]
    rw [Moves.move_free hx hy]
    refine ⟨hfollows, hok, hfiles, hpersists, by omega, fun hall k id n hk hK => ?_⟩
    refine State.renameTo_rightAbout ht hids (hall _ (le_refl _) (by omega)) hx hy hk ?_
    rcases hK with ⟨m, hm, hK⟩ | hK
    · obtain rfl := mem_singleton.mp hm
      rcases hK with hK | ⟨-, hK, -⟩
      · exact .inl (some.inj (hK.symm.trans hx))
      · rw [show s.names.files (x, y).2 = none from hy] at hK
        cases hK
    · exact .inr hK
  | some k₀ =>
    have hd : s.deleteExisting e y = s.deleteFileNoLock e y := by
      simp only [State.deleteExisting, show s.getFile y = some k₀ from hy]
    obtain ⟨hok, hpersists, hfollows, -, hfiles⟩ := State.deleteFileNoLock_names (e := e) ht hy
    rw [Moves.move_taken hx hy]
    simp only [hd, hok]
    cases ho : (e.persist s.persists).ok with
    | false =>
      rw [ho] at hok hfiles
      simp only [Env.oks, ho, Bool.false_eq_true, if_false] at hfiles ⊢
      refine ⟨hfollows, hok, hfiles, hpersists, by omega, fun hall => ?_⟩
      have := hall s.persists (le_refl _) (by omega)
      rw [Env.oks, ho] at this
      cases this
    | true =>
      simp only [Env.oks, ho, if_true] at hfiles ⊢
      -- the destination is free now, and the source still there
      have hx' : (s.deleteFileNoLock e y).2.names.files x = some h := by
        rw [hfiles, Function.update_of_ne hxy, hx]
      have hy' : (s.deleteFileNoLock e y).2.names.files y = none := by
        rw [hfiles, Function.update_self]
      have hids' := hids.follows hfollows
      obtain ⟨hok₂, hpersists₂, hfollows₂, hfiles₂⟩ :=
        State.renameTo_names hfollows.tidy hx' hy'
      rw [hpersists] at hpersists₂ hfiles₂
      rw [hfiles, Moves.moved_of_clear] at hfiles₂
      refine ⟨hfollows.trans hfollows₂, hok₂, hfiles₂, hpersists₂, by omega,
        fun hall k id n hk hK => ?_⟩
      have hok' : (e.persist (s.deleteFileNoLock e y).2.persists).ok = true := by
        exact hall _ (by omega) (by omega)
      refine State.renameTo_rightAbout hfollows.tidy hids' hok' hx' hy' hk ?_
      by_cases hkh : k = h
      · exact .inl hkh
      · refine .inr (State.deleteFileNoLock_rightAbout ht hids ho hy hk ?_)
        rcases hK with ⟨m, hm, hK⟩ | hK
        · obtain rfl := mem_singleton.mp hm
          rcases hK with hK | ⟨-, hK, hn⟩
          · exact absurd (some.inj (hK.symm.trans hx)) hkh
          · exact .inl ⟨some.inj (hK.symm.trans hy), hn⟩
        · exact .inr hK

/-- `RenameFileNoLock` of a file, or of a path that the auxiliary file system refuses to
rename. -/
theorem returns_renameFileNoLock (ht : s.names.Tidy) (hids : HasIds ids s.names) (hxy : x ≠ y)
    (hx : s.names.files x ≠ none ∨ ∀ i, (e.aux i (.renameFile x y)).ok = false) (depth : ℕ) :
    Returns (renameFileNoLock e (depth + 1) x y) s
      (MovedTo e ids s (Touches s.names.files [(x, y)])
        (Moves.move e.oks x y s.names.files s.persists)) := by
  refine .bind (.read ?_)
  cases hsource : s.getFile x with
  | none =>
    have hrefuse := hx.resolve_left (not_not.mpr hsource) s.auxCalls
    refine returns_orReturn (returns_publish ⟨fun hok => ?_, fun _ => ?_⟩)
    · rw [show (s.auxCall e (.renameFile x y)).1.ok = false from hrefuse] at hok
      cases hok
    · rw [Moves.move_missing (show s.names.files x = none from hsource)]
      refine ⟨ht.follows_self, hrefuse, rfl, rfl, le_refl _, fun _ k id n _ hK => ?_⟩
      refine hK.elim (fun hK => ?_) fun hK => hK.congr rfl rfl
      obtain ⟨m, hm, hK⟩ := hK
      obtain rfl := mem_singleton.mp hm
      rcases hK with hK | ⟨hne, -, -⟩
      · rw [show s.names.files (x, y).1 = none from hsource] at hK
        cases hK
      · exact absurd hsource hne
  | some h =>
    have hmoved := movedTo_file (e := e) ht hids hsource hxy
    dsimp only at hmoved
    refine .bind (.read (returns_holding _ (returns_holding _ (returns_orReturn ?_))))
    have hrelease : ∀ st t, MovedTo e ids s (Touches s.names.files [(x, y)])
        (Moves.move e.oks x y s.names.files s.persists) st t →
        MovedTo e ids s (Touches s.names.files [(x, y)])
          (Moves.move e.oks x y s.names.files s.persists) st
          (((s.getFile y).elim t t.release).release h) := by
      intro st t hst
      cases hy : s.getFile y with
      | none => exact hst.release hsource
      | some k => exact (hst.release hy).release hsource
    refine returns_publish ⟨fun hok => returns_publish ?_, fun hok => ?_⟩
    · rw [hok] at hmoved
      exact hrelease _ _ hmoved
    · rw [hok] at hmoved
      exact hrelease _ _ hmoved

end File

def childMoves (source dest : Name) (children : List Name) : List (Name × Name) :=
  children.map fun c => (childPath source c, childPath dest c)

section Loops

theorem returns_rollback (depth : ℕ) (hab : ∀ c, childPath b c ≠ childPath a c)
    (ht : s.names.Tidy) (hids : HasIds ids s.names) (cs : List Name)
    (haux : ∀ c ∈ cs, ∀ i, (e.aux i (.renameFile (childPath b c) (childPath a c))).ok = false) :
    Returns (forEach (fun c => renameFileNoLock e (depth + 1) (childPath b c) (childPath a c)) cs) s
      (MovedTo e ids s (fun _ _ => False)
        (Moves.undo e.oks (childMoves a b cs) s.names.files s.persists)) := by
  induction cs generalizing s with
  | nil =>
    exact .pure (MovedTo.refl ht .OK)
  | cons c cs ih =>
    refine .bind ((returns_renameFileNoLock ht hids (hab c) (.inr (haux c (by simp)))
      depth).mono fun st t hst => ?_)
    have hundo : Moves.undo e.oks (childMoves a b (c :: cs)) s.names.files s.persists =
        let r := Moves.move e.oks (childPath b c) (childPath a c) s.names.files s.persists
        if r.ok then Moves.undo e.oks (childMoves a b cs) r.table r.used else r := rfl
    dsimp only at hundo
    rw [hundo, ← hst.ok]
    cases hok : st.ok with
    | true =>
      have hrest := ih hst.follows.tidy (hids.follows hst.follows)
        fun c' hc' => haux c' (by simp [hc'])
      rw [hst.files, hst.persists] at hrest
      simpa using hrest.mono fun st' u hu => hst.trans hu fun _ _ hK => hK.elim
    | false =>
      exact .pure (hst.mono fun _ _ hK => hK.elim)

/-- The loop over the children and its rollback are the moves of the library. -/
theorem returns_renameChildren (depth : ℕ) (ht : s.names.Tidy) (hids : HasIds ids s.names)
    (hab : ∀ c, childPath b c ≠ childPath a c) (renamed rest : List Name)
    (hmov : Moves.Movable (childMoves a b rest) s.names.files)
    (haux : ∀ c ∈ renamed ++ rest, ∀ i,
      (e.aux i (.renameFile (childPath b c) (childPath a c))).ok = false) :
    Returns (renameChildren e (renameFileNoLock e (depth + 1)) a b renamed rest) s
      (MovedTo e ids s (Touches s.names.files (childMoves a b rest))
        (Moves.all e.oks (childMoves a b renamed) (childMoves a b rest)
          s.names.files s.persists)) := by
  induction rest generalizing s renamed with
  | nil =>
    refine .pure ((MovedTo.refl ht .OK).mono fun k n hK => ?_)
    obtain ⟨m, hm, -⟩ := hK
    simp [childMoves] at hm
  | cons c rest ih =>
    have hsource : s.names.files (childPath a c) ≠ none :=
      hmov.source (childPath a c, childPath b c) (by simp [childMoves])
    refine .bind ((returns_renameFileNoLock ht hids (Ne.symm (hab c)) (.inl hsource)
      depth).mono fun st t hst => ?_)
    have hall : Moves.all e.oks (childMoves a b renamed) (childMoves a b (c :: rest))
          s.names.files s.persists =
        let r := Moves.move e.oks (childPath a c) (childPath b c) s.names.files s.persists
        if r.ok then Moves.all e.oks (childMoves a b (renamed ++ [c])) (childMoves a b rest)
          r.table r.used
        else { Moves.undo e.oks (childMoves a b renamed) r.table r.used with ok := false } := by
      simp only [childMoves, map_append]
      rfl
    dsimp only at hall
    rw [hall, ← hst.ok]
    cases hok : st.ok with
    | true =>
      -- the other children are untouched
      have hsame : ∀ m ∈ childMoves a b rest,
          t.names.files m.1 = s.names.files m.1 ∧ t.names.files m.2 = s.names.files m.2 := by
        intro m hm
        obtain ⟨h₁, h₂, h₃, h₄⟩ := hmov.head m hm
        rw [hst.files]
        exact ⟨Moves.move_frame (Ne.symm h₁) h₄, Moves.move_frame (Ne.symm h₃) (Ne.symm h₂)⟩
      have hloop := ih hst.follows.tidy (hids.follows hst.follows) (renamed ++ [c])
        (hmov.tail.congr fun m hm => (hsame m hm).1) (by simpa using haux)
      rw [← hst.files, ← hst.persists]
      refine hloop.mono fun st' u hu => hst.trans hu fun k n hK => ?_
      obtain ⟨m, hm, hK⟩ := hK
      rcases mem_cons.mp hm with rfl | hm
      · exact .inl ⟨_, mem_singleton.mpr rfl, hK⟩
      · refine .inr ⟨m, hm, ?_⟩
        rwa [(hsame m hm).1, (hsame m hm).2]
    | false =>
      obtain ⟨-, hno, hmove⟩ := Moves.move_refused hsource (hst.ok.symm.trans hok)
      have hused := hst.persists
      rw [hmove] at hused
      have hback := returns_rollback depth hab hst.follows.tidy (hids.follows hst.follows) renamed
        fun c' hc' => haux c' (by simp [hc'])
      rw [hst.files, hst.persists] at hback
      have hlt : s.persists < t.persists := by rw [hused]; exact Nat.lt_succ_self _
      refine returns_orReturn (.bind (hback.mono fun st' u hu => ?_))
      have hend : ∀ st'' : Status, st''.ok = false → ∀ u' : State, u'.names = u.names →
          u'.persists = u.persists → MovedTo e ids s
            (Touches s.names.files (childMoves a b (c :: rest)))
            { Moves.undo e.oks (childMoves a b renamed)
                (Moves.move e.oks (childPath a c) (childPath b c) s.names.files s.persists).table
                (Moves.move e.oks (childPath a c) (childPath b c) s.names.files s.persists).used
              with ok := false } st'' u' := by
        intro st'' hst'' u' hu' hp
        refine ⟨hu' ▸ hst.follows.trans hu.follows, hst'', hu' ▸ hu.files, hp.trans hu.persists,
          hp ▸ hst.le.trans hu.le, fun hall => ?_⟩
        have hyes := hall s.persists (le_refl _) (hp ▸ hlt.trans_le hu.le)
        rw [hno] at hyes
        cases hyes
      cases hok' : st'.ok with
      | false => exact .pure ⟨fun h => by simp at h, fun _ => hend _ rfl u rfl rfl⟩
      | true =>
        refine .bind (returns_publish (.pure ⟨fun _ => .pure ?_, fun h => ?_⟩))
        · exact hend st hok _ rfl rfl
        · exact hend _ h _ rfl rfl

end Loops

end ZenFs
