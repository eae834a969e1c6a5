import ZenFs.Tectonic.Spec

/-!
The strings that an expression generates and the strings that it writes.

`generate` and `write_all` draw the same random numbers, but the strings differ: what a
segmented expression writes has a separator behind the last segment.
-/

namespace ZenFs.Tectonic

open Library StringExpr

variable {ρ : Type} (w : World ρ)

def sampleString (cs : CharacterSet) : ℕ → Act ρ Stop Bytes
  | 0 => pure []
  | n + 1 => do
    let c ← .act (w.character cs)
    let rest ← sampleString cs n
    return c :: rest

/-- A string of a `HotRange` expression; `random_bool` refuses what is no probability. -/
def hotRangeString (len : ℕ) (probability : ℚ) (hotRanges : List Bytes) : Act ρ Stop Bytes := do
  stopIf (probability < 0 ∨ 1 < probability) (.panic "p is outside range [0.0, 1.0]")
  let isHot ← .act (w.randomBool probability)
  if isHot then
    if hotRanges = [] then .fail (.panic "cannot sample empty range")
    else
      let i ← .act (w.below hotRanges.length)
      match hotRanges[i]? with
      | some s => return s
      | none => .fail (.panic "index out of bounds")
  else sampleString w .alphanumeric len

def uniformString (len : NumberExpr) (own parent : Option CharacterSet) : Act ρ Stop Bytes := do
  let n ← len.evaluate w
  sampleString w ((own.or parent).getD .alphanumeric) (asUsize n)

mutual

def StringExpr.writeAll (parent : Option CharacterSet) : StringExpr → Act ρ Stop Bytes
  | .constant val => pure val
  | .uniform len cs => uniformString w len cs parent
  | .weighted items weights => do
    let i ← .act (w.weighted weights)
    writeNth i items
  | .segmented separator segments => writeSegments separator segments
  | .hotRange len probability hotRanges => hotRangeString w len probability hotRanges

def writeNth (i : ℕ) : List StringExpr → Act ρ Stop Bytes
  | [] => .fail (.panic "index out of bounds")
  | item :: rest => match i with
    | 0 => item.writeAll none
    | i + 1 => writeNth i rest

def writeSegments (separator : Bytes) : List StringExpr → Act ρ Stop Bytes
  | [] => pure []
  | segment :: rest => do
    let s ← segment.writeAll none
    let t ← writeSegments separator rest
    return s ++ separator ++ t

end

mutual

/-- `StringExpr::generate`. The segments of a segmented expression are written, with a
separator between two of them. -/
def StringExpr.generate (parent : Option CharacterSet) : StringExpr → Act ρ Stop Bytes
  | .constant val => pure val
  | .uniform len cs => uniformString w len cs parent
  | .weighted items weights => do
    let i ← .act (w.weighted weights)
    generateNth i items
  | .segmented separator segments => joinSegments separator segments
  | .hotRange len probability hotRanges => hotRangeString w len probability hotRanges

def generateNth (i : ℕ) : List StringExpr → Act ρ Stop Bytes
  | [] => .fail (.panic "index out of bounds")
  | item :: rest => match i with
    | 0 => item.generate none
    | i + 1 => generateNth i rest

def joinSegments (separator : Bytes) : List StringExpr → Act ρ Stop Bytes
  | [] => pure []
  | segment :: rest => do
    let s ← segment.writeAll w none
    let t ← joinSegments separator rest
    return if rest.isEmpty then s ++ t else s ++ separator ++ t

end

/-- Both programs take the same random numbers. They stop alike, or the string of the first
begins the string of the second. -/
def Begins (m n : Act ρ Stop Bytes) : Prop :=
  ∀ r, (m r).2 = (n r).2 ∧
    ((∃ s sep, (m r).1 = .ok s ∧ (n r).1 = .ok (s ++ sep)) ∨
      ∃ e, (m r).1 = .error e ∧ (n r).1 = .error e)

namespace Begins

theorem refl (m : Act ρ Stop Bytes) : Begins m m := by
  intro r
  refine ⟨rfl, ?_⟩
  cases h : (m r).1 with
  | ok s => exact .inl ⟨s, [], rfl, by simp⟩
  | error e => exact .inr ⟨e, rfl, rfl⟩

theorem bind {α : Type} (m : Act ρ Stop α) {f g : α → Act ρ Stop Bytes}
    (h : ∀ a, Begins (f a) (g a)) : Begins (m >>= f) (m >>= g) := by
  intro r
  simp only [Bind.bind, Act.bind]
  cases m r with
  | mk res t => cases res with
    | ok a => exact h a t
    | error e => exact ⟨rfl, .inr ⟨e, rfl, rfl⟩⟩

end Begins

theorem writeSegments_eq (separator : Bytes) (segment : StringExpr) (rest : List StringExpr)
    (r : ρ) :
    writeSegments w separator (segment :: rest) r =
      ((joinSegments w separator (segment :: rest) r).1.map (· ++ separator),
        (joinSegments w separator (segment :: rest) r).2) := by
  induction rest generalizing segment r with
  | nil =>
    rw [writeSegments, joinSegments]
    simp only [Bind.bind, Act.bind]
    obtain ⟨_ | s, t⟩ := segment.writeAll w none r
    · rfl
    · simp [writeSegments, joinSegments, Pure.pure, Act.pure, Except.map]
  | cons next rest ih =>
    rw [writeSegments, joinSegments]
    simp only [Bind.bind, Act.bind]
    obtain ⟨_ | s, t⟩ := segment.writeAll w none r
    · rfl
    · dsimp only
      rw [ih next t]
      obtain ⟨_ | u, v⟩ := joinSegments w separator (next :: rest) t
      · rfl
      · simp [Pure.pure, Act.pure, Except.map]

theorem joinSegments_begins (separator : Bytes) :
    (segments : List StringExpr) →
      Begins (joinSegments w separator segments) (writeSegments w separator segments)
  | [] => .refl _
  | segment :: rest => fun r => by
    rw [writeSegments_eq]
    cases h : (joinSegments w separator (segment :: rest) r).1 with
    | ok s => exact ⟨rfl, .inl ⟨s, separator, rfl, rfl⟩⟩
    | error e => exact ⟨rfl, .inr ⟨e, rfl, rfl⟩⟩

mutual

theorem StringExpr.generate_begins (parent : Option CharacterSet) :
    (e : StringExpr) → Begins (e.generate w parent) (e.writeAll w parent)
  | .constant _ | .uniform _ _ | .hotRange _ _ _ => by
    unfold generate writeAll
    exact .refl _
  | .weighted items _ => by
    unfold generate writeAll
    exact .bind _ fun i => generateNth_begins i items
  | .segmented separator segments => by
    unfold generate writeAll
    exact joinSegments_begins w separator segments

theorem generateNth_begins (i : ℕ) :
    (items : List StringExpr) → Begins (generateNth w i items) (writeNth w i items)
  | [] => by
    unfold generateNth writeNth
    exact .refl _
  | item :: rest => by
    unfold generateNth writeNth
    cases i with
    | zero => exact StringExpr.generate_begins none item
    | succ i => exact generateNth_begins i rest

end

mutual

/-- Where the weighted choices lead, with the random numbers that are left there. -/
def StringExpr.picked : StringExpr → ρ → Option (StringExpr × ρ)
  | .weighted items weights, r => pickedNth (w.weighted weights r).1 items (w.weighted weights r).2
  | e, r => some (e, r)

def pickedNth (i : ℕ) : List StringExpr → ρ → Option (StringExpr × ρ)
  | [], _ => none
  | item :: rest, r => match i with
    | 0 => item.picked r
    | i + 1 => pickedNth i rest r

end

/-- One of the segments cannot be written, with the random numbers that those before it leave. -/
def Stops : List StringExpr → ρ → Prop
  | [], _ => False
  | segment :: rest, r =>
    (∃ e, (segment.writeAll w none r).1 = .error e) ∨ Stops rest (segment.writeAll w none r).2

/-- No separator comes to stand behind the last segment. -/
def Unseparated (picked : Option (StringExpr × ρ)) : Prop :=
  ∀ separator segments r, picked = some (.segmented separator segments, r) →
    separator = [] ∨ segments = [] ∨ Stops w segments r

theorem joinSegments_error_iff (separator : Bytes) (segments : List StringExpr) (r : ρ) :
    (∃ e, (joinSegments w separator segments r).1 = .error e) ↔ Stops w segments r := by
  induction segments generalizing r with
  | nil => simp [joinSegments, Stops, Pure.pure, Act.pure]
  | cons segment rest ih =>
    rw [joinSegments, Stops, ← ih]
    simp only [Bind.bind, Act.bind]
    obtain ⟨e | s, u⟩ := segment.writeAll w none r
    · simp
    · dsimp only
      obtain ⟨e | t, v⟩ := joinSegments w separator rest u <;> simp [Pure.pure, Act.pure]

/-- The two texts are the same unless a separator stands behind the last segment. -/
theorem joinSegments_eq_iff (separator : Bytes) (segments : List StringExpr) (r : ρ) :
    joinSegments w separator segments r = writeSegments w separator segments r ↔
      Unseparated w (some (.segmented separator segments, r)) := by
  constructor
  · rintro h _ _ _ ⟨⟩
    cases segments with
    | nil => exact .inr (.inl rfl)
    | cons segment rest =>
      rw [writeSegments_eq] at h
      have hfst := congrArg Prod.fst h
      cases hs : (joinSegments w separator (segment :: rest) r).1 with
      | error e => exact .inr (.inr ((joinSegments_error_iff w separator _ r).mp ⟨e, hs⟩))
      | ok s =>
        rw [hs] at hfst
        exact .inl (List.self_eq_append_right.mp (Except.ok.inj hfst))
  · intro h
    cases segments with
    | nil => rfl
    | cons segment rest =>
      rw [writeSegments_eq]
      refine Prod.ext ?_ rfl
      obtain rfl | hnil | hstops := h _ _ _ rfl
      · cases (joinSegments w [] (segment :: rest) r).1 <;> simp [Except.map]
      · cases hnil
      · obtain ⟨e, he⟩ := (joinSegments_error_iff w separator _ r).mpr hstops
        rw [he]
        rfl

mutual

theorem StringExpr.generate_eq_writeAll_iff (parent : Option CharacterSet) (r : ρ) :
    (e : StringExpr) →
      (e.generate w parent r = e.writeAll w parent r ↔ Unseparated w (e.picked w r))
  | .constant _ | .uniform _ _ | .hotRange _ _ _ => by
    unfold generate writeAll picked
    exact iff_of_true rfl nofun
  | .weighted items weights => by
    unfold generate writeAll picked
    exact generateNth_eq_writeNth_iff _ _ items
  | .segmented separator segments => by
    unfold generate writeAll picked
    exact joinSegments_eq_iff w separator segments r

theorem generateNth_eq_writeNth_iff (i : ℕ) (r : ρ) : (items : List StringExpr) →
    (generateNth w i items r = writeNth w i items r ↔ Unseparated w (pickedNth w i items r))
  | [] => by
    unfold generateNth writeNth pickedNth
    exact iff_of_true rfl nofun
  | item :: rest => by
    unfold generateNth writeNth pickedNth
    cases i with
    | zero => exact StringExpr.generate_eq_writeAll_iff none r item
    | succ i => exact generateNth_eq_writeNth_iff i r rest

end

/-- Both strings are the same, and take the same random numbers, unless the choices lead to a
segmented expression with a separator. -/
theorem strings_agree_iff (parent : Option CharacterSet) (e : StringExpr) (r : ρ) :
    e.generate w parent r = e.writeAll w parent r ↔ Unseparated w (e.picked w r) :=
  e.generate_eq_writeAll_iff w parent r

/-- The strings of one segment and a separator. -/
theorem written_with_separator :
    (StringExpr.segmented [45] [.constant [97]]).generate tickWorld none 0 ≠
      (StringExpr.segmented [45] [.constant [97]]).writeAll tickWorld none 0 := by
  simp [generate, writeAll, joinSegments, writeSegments, Bind.bind, Act.bind, Pure.pure, Act.pure]

end ZenFs.Tectonic
