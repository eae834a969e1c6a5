import ZenFs.Namespace.Children
import ZenFs.Namespace.Orderly

/-!
When deleting, linking and renaming are all or nothing.

`NsOp.Safe` is the condition, on the state and on the outcomes of the metadata writes, under
which an operation returns OK just when the request is in effect and persisted, and changes
nothing otherwise: a failed sync is rolled back but reported as OK, a rename that has removed
its destination does not bring it back, and a file renamed onto itself is deleted.
-/

namespace ZenFs

open Library Function

variable {K : Handle → Name → Prop} {a b link : Name} {depth : ℕ} {ids : Handle → Option ℕ}
variable {m : Prog State Status} {ok : Bool} {r : Moves.Run Name Handle}

inductive NsOp
  | deleteFile (fname : Name)
  | linkFile (file link : Name)
  | renameFile (source dest : Name)
  deriving DecidableEq, Repr

namespace NsOp

/-- The program of an operation; `depth` bounds the nesting of renames. -/
def prog (e : Env) (depth : ℕ) : NsOp → FsProg Status
  | deleteFile fname => ZenFs.deleteFile e fname
  | linkFile file link => ZenFs.linkFile e file link
  | renameFile source dest => ZenFs.renameFile e depth source dest

/-- The table of names that the operation is asked for; `none` if the request is to be
refused. Paths that are not files are left to the auxiliary file system. -/
def requested (e : Env) (s : State) : NsOp → Option (Name → Option Handle)
  | deleteFile fname =>
    match s.getFile fname with
    | some _ => some (update s.getFile fname none)
    | none => if (e.aux s.auxCalls (.deleteFile fname)).ok then some s.getFile else none
  | linkFile file link =>
    match s.getFile link, s.getFile file with
    | some _, _ => none
    | none, some h => some (update s.getFile link (some h))
    | none, none => if (e.aux s.auxCalls (.linkFile file link)).ok then some s.getFile else none
  | renameFile source dest =>
    match s.getFile source with
    | some h => some (Moves.moved s.getFile source dest h)
    | none =>
      if (e.aux s.auxCalls (.renameFile source dest)).ok then
        some (movedTree source dest s.getFile)
      else none

def renames (s : State) (source dest : Name) : List (Name × Name) :=
  match s.getFile source with
  | some _ => [(source, dest)]
  | none => childMoves source dest (getChildren source s.cat.files)

/-- The metadata writes of the operation end in such a way that it is all or nothing. -/
def Safe (e : Env) (s : State) : NsOp → Prop
  | deleteFile _ => True
  | linkFile file link =>
    s.getFile file ≠ none → s.getFile link = none → e.oks s.persists = true
  | renameFile source dest =>
    s.getFile source ≠ none ∨ (e.aux s.auxCalls (.renameFile source dest)).ok = true →
      if source = dest then renames s source dest = []
      else
        (∀ j < Moves.questions s.getFile (renames s source dest), e.oks (s.persists + j) = true) ∨
          Moves.Undone e.oks s.getFile (renames s source dest) s.persists

/-- After `source` has become `dest`, the auxiliary file system has nothing at the paths
where the files below `source` are to be. -/
def AuxApart (e : Env) (s : State) : NsOp → Prop
  | renameFile source dest => ∀ c, s.getFile (childPath source c) ≠ none →
      ∀ i, (e.aux i (.renameFile (childPath dest c) (childPath source c))).ok = false
  | _ => True

end NsOp

/-- For every name that has changed, the log is right about the files it led to before and
leads to now. -/
def PersistedChange (s t : State) : Prop :=
  ∀ n, t.names.files n ≠ s.names.files n → ∀ k E, s.names.entry k = some E →
    (s.names.files n = some k ∨ t.names.files n = some k) → RightAbout t k E.fileId n

/-- What is asked of the status `st` and the state `t` an operation ends with. -/
def NsOp.Honest (e : Env) (s : State) (op : NsOp) (st : Status) (t : State) : Prop :=
  (st.ok = true ↔ ∃ T, op.requested e s = some T ∧ t.getFile = T ∧ PersistedChange s t) ∧
    (st.ok = false → Names.Same s.names t.names)

/-- The operation returns, with OK if and only if the request is in effect and persisted,
and otherwise leaves `files_` and the link names of every file as they were. -/
def NsOp.AllOrNothing (e : Env) (depth : ℕ) (s : State) (op : NsOp) : Prop :=
  Returns (op.prog e depth) s (op.Honest e s)

section Honest

variable {e : Env} {s t : State} {op : NsOp} {st : Status} {T : Name → Option Handle}

theorem persistedChange_of_files (h : t.names.files = s.names.files) : PersistedChange s t :=
  fun n hn => absurd (congrFun h n) hn

theorem same_of_names (h : t.names = s.names) : Names.Same s.names t.names := by
  rw [h]
  refine ⟨rfl, fun k => ?_⟩
  cases s.names.entry k with
  | none => exact .none
  | some E => exact .some ⟨rfl, fun _ => Iff.rfl⟩

theorem honest_of_names (hnames : t.names = s.names)
    (hreq : op.requested e s = if st.ok then some s.getFile else none) : op.Honest e s st t := by
  refine ⟨⟨fun hok => ?_, ?_⟩, fun _ => same_of_names hnames⟩
  · rw [if_pos hok] at hreq
    exact ⟨s.getFile, hreq, congrArg Names.files hnames,
      persistedChange_of_files (congrArg Names.files hnames)⟩
  · rintro ⟨T, hT, -⟩
    rw [hreq] at hT
    split at hT
    case isTrue hok => exact hok
    case isFalse => cases hT

/-- For a request that can be carried out, being honest is all or nothing. -/
theorem honest_iff (ht : s.names.Tidy) (hreq : op.requested e s = some T)
    (hf : Names.Follows s.names t.names) : op.Honest e s st t ↔
      (st.ok = true ∧ t.names.files = T ∧ PersistedChange s t) ∨
        (st.ok = false ∧ t.names.files = s.names.files ∧ T ≠ s.names.files) := by
  have hex : (∃ T, op.requested e s = some T ∧ t.getFile = T ∧ PersistedChange s t) ↔
      t.names.files = T ∧ PersistedChange s t := by
    rw [hreq]
    constructor
    · rintro ⟨T', hT, h⟩
      rw [Option.some.inj hT]
      exact h
    · exact fun h => ⟨T, rfl, h⟩
  rw [NsOp.Honest, hex]
  cases st.ok with
  | true => simp
  | false =>
    constructor
    · rintro ⟨hiff, hsame⟩
      have hfiles := (hsame rfl).1
      refine .inr ⟨rfl, hfiles, fun hT => ?_⟩
      exact Bool.noConfusion (hiff.mpr ⟨hfiles.trans hT.symm, persistedChange_of_files hfiles⟩)
    · rintro (⟨h, -⟩ | ⟨-, hfiles, hT⟩)
      · cases h
      · exact ⟨⟨fun h => Bool.noConfusion h, fun h => absurd (h.1.symm.trans hfiles) hT⟩,
          fun _ => hf.same ht hfiles⟩

theorem honest_iff_of_movedTo (ht : s.names.Tidy) (hids : HasIds ids s.names)
    (hreq : op.requested e s = some T) (hm : MovedTo e ids s K r st t)
    (hyes : r.ok = true → r.table = T → ∀ j, s.persists ≤ j → j < r.used → e.oks j = true)
    (hK : ∀ n k, T n ≠ s.names.files n → (s.names.files n = some k ∨ T n = some k) → K k n) :
    op.Honest e s st t ↔
      (r.ok = true ∧ r.table = T) ∨
        (r.ok = false ∧ r.table = s.names.files ∧ T ≠ s.names.files) := by
  rw [honest_iff ht hreq hm.follows, hm.ok, hm.files]
  refine or_congr_left ⟨fun h => ⟨h.1, h.2.1⟩, fun h => ⟨h.1, h.2, fun n hn k E hE hk => ?_⟩⟩
  rw [hm.files, h.2] at hn hk
  exact hm.right (hm.persists ▸ hyes h.1 h.2) k _ n (hids.entry hE) (.inl (hK n k hn hk))

end Honest

section Operations

variable {e : Env} {s : State}

section Reset

variable (hreset : ∀ n, (e.reset n).ok = true)
include hreset

theorem returns_thenReset (hm : Returns m s (MovedTo e ids s K r)) :
    Returns (orReturn m (resetUnusedIOZones e)) s (MovedTo e ids s K r) := by
  refine returns_orReturn (hm.mono fun st t hst => ⟨fun hok => ?_, fun _ => hst⟩)
  refine (returns_resetUnusedIOZones hreset t).mono ?_
  rintro st' u ⟨hst', hcat, hlog, hpersists⟩
  have hu := hst.congr hcat hlog hpersists
  exact ⟨hu.follows, (hst'.trans hok.symm).trans hu.ok, hu.files, hu.persists, hu.le, hu.right⟩

theorem returns_thenReset_names
    (hm : Returns m s fun st t => t.names = s.names ∧ st.ok = ok) :
    Returns (orReturn m (resetUnusedIOZones e)) s fun st t => t.names = s.names ∧ st.ok = ok := by
  refine returns_orReturn (hm.mono fun st t hst => ⟨fun hok => ?_, fun _ => hst⟩)
  refine (returns_resetUnusedIOZones hreset t).mono ?_
  rintro st' u ⟨hst', hcat, -, -⟩
  exact ⟨(State.names_congr hcat).trans hst.1, (hst'.trans hok.symm).trans hst.2⟩

end Reset

variable {h : Handle} {n : Name}

theorem returns_deleteFile (hreset : ∀ n, (e.reset n).ok = true) (ht : s.names.Tidy)
    (hids : HasIds ids s.names) (hn : s.names.files n = some h) :
    Returns (deleteFile e n) s (MovedTo e ids s (fun k m => k = h ∧ m = n)
      ⟨e.oks s.persists,
        if e.oks s.persists then update s.names.files n none else s.names.files,
        s.persists + 1⟩) := by
  obtain ⟨hok, hpersists, hfollows, -, hfiles⟩ := State.deleteFileNoLock_names ht hn
  refine .bind (.read (returns_thenReset hreset (returns_holding _ (returns_publish ?_))))
  rw [show s.getFile n = some h from hn]
  refine MovedTo.release ⟨hfollows, hok, hfiles, hpersists, by omega, fun hall => ?_⟩ hn
  have hyes : (e.persist s.persists).ok = true := hall _ (le_refl _) (by omega)
  exact fun k id m hk hK => State.deleteFileNoLock_rightAbout ht hids hyes hn hk hK

theorem returns_deleteFile_aux (hreset : ∀ n, (e.reset n).ok = true)
    (hn : s.names.files n = none) :
    Returns (deleteFile e n) s fun st t =>
      t.names = s.names ∧ st.ok = (e.aux s.auxCalls (.deleteFile n)).ok := by
  have hn' : s.getFile n = none := hn
  refine .bind (.read (returns_thenReset_names hreset ?_))
  refine returns_holding _ (returns_publish ?_)
  rw [State.deleteFileNoLock, hn']
  exact ⟨rfl, rfl⟩

theorem returns_linkFile (ht : s.names.Tidy) (hids : HasIds ids s.names)
    (hn : s.names.files n = some h) (hlink : s.names.files link = none) :
    Returns (linkFile e n link) s (MovedTo e ids s (fun k _ => k = h)
      ⟨true,
        if e.oks s.persists then update s.names.files link (some h) else s.names.files,
        s.persists + 1⟩) := by
  obtain ⟨hok, hpersists, hfollows, hfiles⟩ := State.linkFile_names ht hn hlink
  refine returns_publish ⟨hfollows, hok, hfiles, hpersists, by omega, fun hall => ?_⟩
  have hyes : (e.persist s.persists).ok = true := hall _ (le_refl _) (by omega)
  exact fun k id m hk hK => State.linkFile_rightAbout ht hids hyes hn hlink hk hK

/-- A rename is the loop over the renames of files that it consists of. -/
theorem returns_renameFile (hreset : ∀ n, (e.reset n).ok = true) (depth : ℕ) (ht : s.names.Tidy)
    (hids : HasIds ids s.names) (hab : a ≠ b)
    (hgo : s.names.files a ≠ none ∨ (e.aux s.auxCalls (.renameFile a b)).ok = true)
    (haux : NsOp.AuxApart e s (.renameFile a b)) :
    Returns (renameFile e (depth + 2) a b) s
      (MovedTo e ids s (Touches s.names.files (NsOp.renames s a b))
        (Moves.all e.oks [] (NsOp.renames s a b) s.names.files s.persists)) := by
  refine returns_thenReset hreset ?_
  cases ha : s.getFile a with
  | some h =>
    have hrenames : NsOp.renames s a b = [(a, b)] := by rw [NsOp.renames, ha]
    have hsource : s.names.files a ≠ none := by
      rw [show s.names.files a = some h from ha]
      simp
    rw [hrenames, Moves.all_single]
    exact returns_renameFileNoLock ht hids hab (.inl hsource) (depth + 1)
  | none =>
    have hrenames : NsOp.renames s a b = childMoves a b (getChildren a s.cat.files) := by
      rw [NsOp.renames, ha]
    have hok := hgo.resolve_left (not_not.mpr ha)
    have hnested : ¬ Nested a b := fun h => by
      rw [e.aux_nested _ a b hab h] at hok
      cases hok
    rw [hrenames]
    refine .bind (.read ?_)
    rw [ha]
    refine returns_orReturn (returns_publish ⟨fun _ => ?_, fun hno => ?_⟩)
    · -- the auxiliary file system has made its rename
      refine .bind (.read ((returns_renameChildren (s := (s.auxCall e
        (.renameFile a b)).2) depth ht hids (fun c => Ne.symm (childPath_ne hnested)) []
        (getChildren a s.cat.files) (movable_children hnested _ fun _ => rfl) ?_).mono ?_))
      · exact fun c hc => haux c (mem_getChildren.mp hc)
      · exact fun st t hst => ⟨hst.follows, hst.ok, hst.files, hst.persists, hst.le, hst.right⟩
    · rw [show (s.auxCall e (.renameFile a b)).1.ok = true from hok] at hno
      cases hno

theorem returns_renameFileNoLock_self (ht : s.names.Tidy) (hn : s.names.files n ≠ none)
    (depth : ℕ) : Returns (renameFileNoLock e (depth + 1) n n) s fun st _ => st.ok = false := by
  obtain ⟨h, hn⟩ := Option.ne_none_iff_exists'.mp hn
  obtain ⟨hok, -, hfollows, ⟨E, hE⟩, hfiles⟩ := State.deleteFileNoLock_names ht hn
  have hn' : s.getFile n = some h := hn
  have hexisting : s.deleteExisting e n = s.deleteFileNoLock e n := by
    rw [State.deleteExisting, hn']
  refine .bind (.read ?_)
  rw [hn']
  refine .bind (.read (returns_holding _ (returns_holding _ (returns_orReturn ?_))))
  refine returns_publish ⟨fun hdeleted => returns_publish ?_, fun hno => hno⟩
  rw [hexisting] at hdeleted ⊢
  rw [← hok, if_pos hdeleted] at hfiles
  obtain ⟨f, hf, hentry⟩ := State.exists_of_entry hE
  have hgone : n ∉ f.linkfiles := by
    intro hmem
    have := (hfollows.tidy.links hE n).mp (hentry ▸ hmem)
    rw [hfiles, update_self] at this
    cases this
  rw [State.renameTo_of_not_mem n hf hgone]
  rfl

theorem returns_renameFile_self (depth : ℕ) (ht : s.names.Tidy) (hne : NsOp.renames s a a ≠ []) :
    Returns (renameFile e (depth + 2) a a) s fun st _ => st.ok = false := by
  suffices hloop : Returns (renameFileNoLock e (depth + 2) a a) s fun st _ => st.ok = false by
    refine returns_orReturn (hloop.mono fun st t hst => ⟨fun hok => ?_, id⟩)
    rw [hst] at hok
    cases hok
  cases ha : s.getFile a with
  | some h =>
    exact returns_renameFileNoLock_self ht (by rw [show s.names.files a = _ from ha]; simp) _
  | none =>
    have hrenames : NsOp.renames s a a = childMoves a a (getChildren a s.cat.files) := by
      rw [NsOp.renames, ha]
    refine .bind (.read ?_)
    rw [ha]
    refine returns_orReturn (returns_publish ⟨fun _ => .bind (.read ?_), id⟩)
    show Returns (renameChildren e (renameFileNoLock e (depth + 1)) a a []
      (getChildren a s.cat.files)) _ _
    cases hc : getChildren a s.cat.files with
    | nil => simp [hrenames, hc, childMoves] at hne
    | cons c rest =>
      have hsource : s.names.files (childPath a c) ≠ none :=
        mem_getChildren.mp (hc ▸ List.mem_cons_self)
      refine .bind ((returns_renameFileNoLock_self (s := (s.auxCall e (.renameFile a a)).2)
        ht hsource depth).mono fun st t hst => ?_)
      rw [hst]
      -- there is nothing to roll back but the rename in the auxiliary file system
      refine returns_orReturn (.bind (.pure ?_))
      exact .bind (returns_publish (.pure ⟨fun _ => .pure hst, id⟩))

end Operations

section Main

variable {e : Env} {s : State}

theorem movedTree_self (a : Name) (T : Name → Option Handle) : movedTree a a T = T := by
  funext n
  unfold movedTree
  split
  case isTrue h => rw [← eq_childPath h.1]
  case isFalse h =>
    split
    case isTrue ha =>
      rw [← eq_childPath ha, and_iff_right ha, not_not] at h
      exact h.symm
    case isFalse => rfl

theorem requested_renameFile
    (hgo : s.names.files a ≠ none ∨ (e.aux s.auxCalls (.renameFile a b)).ok = true) :
    (a = b → (NsOp.renameFile a b).requested e s = some s.names.files) ∧
    (a ≠ b → Moves.Movable (NsOp.renames s a b) s.names.files ∧
      (NsOp.renameFile a b).requested e s =
        some (Moves.movedAll s.names.files (NsOp.renames s a b))) := by
  cases ha : s.getFile a with
  | some h =>
    have ha' : s.names.files a = some h := ha
    have hreq : (NsOp.renameFile a b).requested e s = some (Moves.moved s.names.files a b h) := by
      simp only [NsOp.requested, ha]
      rfl
    have hrenames : NsOp.renames s a b = [(a, b)] := by rw [NsOp.renames, ha]
    rw [hreq, hrenames]
    refine ⟨?_, fun hab => ⟨⟨by simp, by simpa using hab, by simp [ha']⟩, ?_⟩⟩
    · rintro rfl
      rw [Moves.moved, update_idem, ← ha', update_eq_self]
    · rw [Moves.movedAll, List.foldl_cons, List.foldl_nil, Moves.moveOne_of_some ha']
  | none =>
    have hok := hgo.resolve_left (not_not.mpr ha)
    have hreq : (NsOp.renameFile a b).requested e s = some (movedTree a b s.names.files) := by
      simp only [NsOp.requested, ha, hok]
      rfl
    have hrenames : NsOp.renames s a b = childMoves a b (getChildren a s.cat.files) := by
      rw [NsOp.renames, ha]
    rw [hreq, hrenames]
    constructor
    · rintro rfl
      rw [movedTree_self]
    · intro hab
      have hnested : ¬ Nested a b := fun h => by
        rw [e.aux_nested _ a b hab h] at hok
        cases hok
      exact ⟨movable_children hnested _ fun _ => rfl,
        congrArg some (movedAll_children hnested fun _ => rfl).symm⟩

theorem allOrNothing_deleteFile (hreset : ∀ n, (e.reset n).ok = true) (ht : s.names.Tidy)
    (n : Name) :
    (NsOp.deleteFile n).AllOrNothing e depth s := by
  cases hn : s.names.files n with
  | none =>
    have hn' : s.getFile n = none := hn
    refine (returns_deleteFile_aux hreset hn).mono fun st t hst => honest_of_names hst.1 ?_
    simp only [NsOp.requested, hn', hst.2]
  | some h =>
    have hreq : (NsOp.deleteFile n).requested e s =
        some (update s.names.files n none) := by
      simp only [NsOp.requested, show s.getFile n = some h from hn]
      rfl
    refine (returns_deleteFile hreset ht (.self ht) hn).mono fun st t hst => ?_
    refine (honest_iff_of_movedTo ht (.self ht) hreq hst (fun hok _ j hj hlt => ?_) ?_).mpr ?_
    · obtain rfl : j = s.persists := by dsimp only at hlt; omega
      exact hok
    · intro m k hm hk
      obtain rfl : m = n := by
        by_contra hne
        exact hm (update_of_ne hne ..)
      rw [hn] at hk
      simpa [eq_comm] using hk
    · cases ho : e.oks s.persists with
      | true => exact .inl ⟨rfl, rfl⟩
      | false =>
        refine .inr ⟨rfl, rfl, fun hT => ?_⟩
        have := congrFun hT n
        rw [update_self, hn] at this
        cases this

/-- A link is all or nothing exactly if it is safe. -/
theorem allOrNothing_linkFile (ht : s.names.Tidy) (file link : Name) :
    (NsOp.linkFile file link).AllOrNothing e depth s ↔ (NsOp.linkFile file link).Safe e s := by
  cases hlink : s.names.files link with
  | some k =>
    have hlink' : s.getFile link = some k := hlink
    refine iff_of_true ?_ fun _ hfree => ?_
    · refine returns_publish (honest_of_names ?_ ?_)
      · simp only [State.linkFile, hlink']
      · simp [NsOp.requested, State.linkFile, hlink']
    · rw [hlink'] at hfree
      cases hfree
  | none =>
    have hlink' : s.getFile link = none := hlink
    cases hfile : s.names.files file with
    | none =>
      have hfile' : s.getFile file = none := hfile
      refine iff_of_true (returns_publish (honest_of_names ?_ ?_)) fun h => absurd hfile h
      · simp only [State.linkFile, hlink', hfile']
        rfl
      · simp only [NsOp.requested, State.linkFile, hlink', hfile']
        rfl
    | some h =>
      have hfile' : s.getFile file = some h := hfile
      have hreq : (NsOp.linkFile file link).requested e s =
          some (update s.names.files link (some h)) := by
        simp only [NsOp.requested, hlink', hfile']
        rfl
      have hT : update s.names.files link (some h) ≠ s.names.files := by
        intro hT
        have := congrFun hT link
        rw [update_self, hlink] at this
        cases this
      have hsafe : (NsOp.linkFile file link).Safe e s ↔ e.oks s.persists = true := by
        simp [NsOp.Safe, hfile', hlink']
      rw [hsafe]
      refine (returns_linkFile ht (.self ht) hfile hlink).iff_of fun st t hst => ?_
      refine (honest_iff_of_movedTo ht (.self ht) hreq hst (fun _ htable j hj hlt => ?_) ?_).trans ?_
      · obtain rfl : j = s.persists := by dsimp only at hlt; omega
        by_contra hno
        exact hT (htable.symm.trans (if_neg hno))
      · intro m k hm hk
        obtain rfl : m = link := by
          by_contra hne
          exact hm (update_of_ne hne ..)
        rw [hlink] at hk
        simpa [eq_comm] using hk
      · cases e.oks s.persists with
        | true => exact iff_of_true (.inl ⟨rfl, rfl⟩) rfl
        | false =>
          refine iff_of_false ?_ Bool.false_ne_true
          rintro (⟨-, htable⟩ | ⟨h, -⟩)
          · exact hT htable.symm
          · cases h

theorem allOrNothing_renameFile_refused (ha : s.getFile a = none)
    (hno : (e.aux s.auxCalls (.renameFile a b)).ok = false) (depth : ℕ) :
    (NsOp.renameFile a b).AllOrNothing e (depth + 1) s := by
  have hreq : (NsOp.renameFile a b).requested e s = none := by
    simp [NsOp.requested, ha, hno]
  refine returns_orReturn (.bind (.read ?_))
  rw [ha]
  refine returns_orReturn (returns_publish ⟨fun hok => ?_, fun _ => ⟨fun hok => ?_, fun _ => ?_⟩⟩)
  · rw [show (s.auxCall e (.renameFile a b)).1.ok = false from hno] at hok
    cases hok
  · rw [show (s.auxCall e (.renameFile a b)).1.ok = false from hno] at hok
    cases hok
  · refine honest_of_names rfl (hreq.trans (if_neg ?_).symm)
    rw [show (s.auxCall e (.renameFile a b)).1.ok = false from hno]
    exact Bool.false_ne_true

theorem allOrNothing_renameFile_self (hreset : ∀ n, (e.reset n).ok = true) (ht : s.names.Tidy)
    (hgo : s.names.files a ≠ none ∨ (e.aux s.auxCalls (.renameFile a a)).ok = true) (depth : ℕ) :
    (NsOp.renameFile a a).AllOrNothing e (depth + 2) s ↔ NsOp.renames s a a = [] := by
  have hreq := (requested_renameFile hgo).1 rfl
  by_cases hne : NsOp.renames s a a = []
  · refine iff_of_true ?_ hne
    cases ha : s.getFile a with
    | some h => simp [NsOp.renames, ha] at hne
    | none =>
      have hok := hgo.resolve_left (not_not.mpr ha)
      have hchildren : getChildren a s.cat.files = [] := by
        simpa [NsOp.renames, ha, childMoves] using hne
      have hnames : Returns (renameFile e (depth + 2) a a) s fun st t =>
          t.names = s.names ∧ st.ok = true := by
        refine returns_thenReset_names hreset (.bind (.read ?_))
        rw [ha]
        refine returns_orReturn (returns_publish ⟨fun _ => ?_, fun hno => ?_⟩)
        · refine .bind (.read ?_)
          rw [show getChildren a (s.auxCall e (.renameFile a a)).2.cat.files = [] from hchildren]
          exact .pure ⟨rfl, rfl⟩
        · rw [show (s.auxCall e (.renameFile a a)).1.ok = true from hok] at hno
          cases hno
      exact hnames.mono fun st t hst => honest_of_names hst.1 (by rw [hreq, if_pos hst.2]; rfl)
  · refine (returns_renameFile_self depth ht hne).iff_of fun st t hst => ?_
    refine iff_of_false (fun hh => ?_) hne
    have hfiles := (hh.2 hst).1
    have hok := hh.1.mpr ⟨_, hreq, hfiles, persistedChange_of_files hfiles⟩
    rw [hst] at hok
    cases hok

theorem allOrNothing_renameFile_ne (hreset : ∀ n, (e.reset n).ok = true) (ht : s.names.Tidy)
    (hab : a ≠ b)
    (hgo : s.names.files a ≠ none ∨ (e.aux s.auxCalls (.renameFile a b)).ok = true)
    (haux : NsOp.AuxApart e s (.renameFile a b)) (depth : ℕ) :
    (NsOp.renameFile a b).AllOrNothing e (depth + 2) s ↔
      (∀ j < Moves.questions s.names.files (NsOp.renames s a b), e.oks (s.persists + j) = true) ∨
        Moves.Undone e.oks s.names.files (NsOp.renames s a b) s.persists := by
  obtain ⟨hL, hreq⟩ := (requested_renameFile hgo).2 hab
  refine (returns_renameFile hreset depth ht (.self ht) hab hgo haux).iff_of fun st t hst => ?_
  refine (honest_iff_of_movedTo ht (.self ht) hreq hst (fun hok htable j hj hlt => ?_) ?_).trans ?_
  · have hyes := (Moves.all_moved_iff hL).mp ⟨hok, htable⟩
    rw [Moves.all_yes hL hyes] at hlt
    have := hyes (j - s.persists) (by dsimp only at hlt; omega)
    rwa [Nat.add_sub_cancel' hj] at this
  · -- a name that changes is one of the two names of a move
    intro n k hn hk
    by_contra hK
    refine hn (Moves.movedAll_of_ne fun m hm => ⟨?_, ?_⟩)
    · rintro rfl
      rw [(Moves.movedAll_move hL hm).1] at hk
      exact hK ⟨m, hm, .inl (hk.resolve_right (by simp))⟩
    · rintro rfl
      rw [(Moves.movedAll_move hL hm).2] at hk
      exact hK ⟨m, hm, hk.symm.imp_right fun h => ⟨hL.source m hm, h, rfl⟩⟩
  · rw [← Moves.all_moved_iff hL, ← Moves.all_undone_iff hL]
    refine or_congr_right ⟨fun h => ⟨h.1, h.2.1⟩, fun h => ⟨h.1, h.2, fun hT => ?_⟩⟩
    obtain ⟨A, m, B, hAB, -⟩ := (Moves.all_undone_iff hL).mp h
    have hm : m ∈ NsOp.renames s a b := by simp [hAB]
    exact hL.source m hm ((congrFun hT m.1).symm.trans (Moves.movedAll_move hL hm).1)

/-- As long as unused zones can be reset, an operation is all or nothing exactly if it is safe. -/
theorem allOrNothing_iff_safe (e : Env) (hreset : ∀ n, (e.reset n).ok = true) (depth : ℕ)
    (s : State) (op : NsOp) (ht : s.names.Tidy) (haux : op.AuxApart e s) :
    op.AllOrNothing e (depth + 2) s ↔ op.Safe e s := by
  cases op with
  | deleteFile n => exact iff_of_true (allOrNothing_deleteFile hreset ht n) trivial
  | linkFile file link => exact allOrNothing_linkFile ht file link
  | renameFile a b =>
    by_cases hgo : s.names.files a ≠ none ∨ (e.aux s.auxCalls (.renameFile a b)).ok = true
    · have hsafe : (NsOp.renameFile a b).Safe e s ↔ _ := forall_prop_of_true hgo
      rw [hsafe]
      by_cases hab : a = b
      · subst hab
        rw [if_pos rfl]
        exact allOrNothing_renameFile_self hreset ht hgo depth
      · rw [if_neg hab]
        exact allOrNothing_renameFile_ne hreset ht hab hgo haux depth
    · refine iff_of_true ?_ fun h => absurd h hgo
      rw [not_or, not_not, Bool.not_eq_true] at hgo
      exact allOrNothing_renameFile_refused hgo.1 hgo.2 (depth + 1)

end Main

theorem metaRun_oneFile (e : Env) : MetaRun e (fun _ _ => True)
    ((State.initial e).createFile e [97] true).2 :=
  .step (.openWritableFile [97] true false) .init (by simp [MetaOp.Valid]) trivial rfl

/-- Renaming the only file of a file system. -/
theorem allOrNothing_iff_safe_oneFile :
    let e := Env.small fun _ => .appended
    let s := ((State.initial e).createFile e [97] true).2
    (s.names.Tidy ∧ (NsOp.renameFile [97] [98]).AuxApart e s) ∧
      ((NsOp.renameFile [97] [98]).AllOrNothing e 2 s ↔ (NsOp.renameFile [97] [98]).Safe e s) :=
  ⟨⟨(metaRun_oneFile _).orderly.tidy, fun _ _ _ => rfl⟩,
    allOrNothing_iff_safe _ (fun _ => rfl) 0 _ _ (metaRun_oneFile _).orderly.tidy fun _ _ _ => rfl⟩

/-- The record of a second link name is not written: `LinkFile` takes the name back and
returns OK. -/
theorem failed_link_not_allOrNothing :
    let e := Env.small fun n => if n = 0 then .appended else .failed "write error"
    ∃ s, MetaRun e (fun _ _ => True) s ∧ ¬ (NsOp.linkFile [97] [98]).AllOrNothing e 2 s := by
  intro e
  refine ⟨_, metaRun_oneFile e, ?_⟩
  rw [allOrNothing_linkFile (metaRun_oneFile e).orderly.tidy]
  intro hsafe
  have hok := hsafe (by decide) (by decide)
  exact absurd hok (by decide)

end ZenFs
