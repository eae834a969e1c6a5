import ZenFs.Namespace.Rename

/-!
The files below a directory, and the table of names after the directory has been renamed.

The children that `GetZenFSChildrenNoLock` lists are the files whose path starts with that
of the directory. When neither directory lies below the other, their renames do not get in
each other's way.
-/

namespace ZenFs

open Library List Option

variable {T : Name → Option Handle} {a b c' : Name} {files : Files}

section Paths

variable {c n : Name}

theorem withSeparator_eq_append (dir : Name) : ∃ l, withSeparator dir = l ++ [separator] := by
  unfold withSeparator
  split
  case isTrue h => exact getLast?_eq_some_iff.mp h
  case isFalse => exact ⟨dir, rfl⟩

theorem withSeparator_isPrefix_dropWhile :
    withSeparator a <+: (n.reverse.dropWhile (· ≠ separator)).reverse ↔ withSeparator a <+: n := by
  obtain ⟨l, hl⟩ := withSeparator_eq_append a
  constructor
  · intro h
    refine h.trans (reverse_suffix.mp ?_)
    rw [reverse_reverse]
    exact dropWhile_suffix _
  · rintro ⟨r, rfl⟩
    have hstop : (l ++ [separator]).reverse.dropWhile (· ≠ separator) = (l ++ [separator]).reverse := by
      simp
    rw [hl, reverse_append, dropWhile_append, hstop]
    split
    · rw [reverse_reverse]
    · rw [reverse_append, reverse_reverse]
      exact prefix_append _ _

theorem childPath_inj : childPath a c = childPath a c' ↔ c = c' :=
  append_right_inj _

theorem isPrefix_childPath : withSeparator a <+: childPath a c := prefix_append _ _

theorem eq_childPath (h : withSeparator a <+: n) :
    n = childPath a (n.drop (withSeparator a).length) := by
  obtain ⟨c, rfl⟩ := h
  rw [drop_left]
  rfl

theorem not_below_both (hab : ¬ Nested a b) (ha : withSeparator a <+: n) :
    ¬ withSeparator b <+: n :=
  fun hb => hab ( prefix_or_prefix_of_prefix ha hb)

theorem childPath_ne (hab : ¬ Nested a b) : childPath a c ≠ childPath b c' := by
  intro h
  have hb : withSeparator b <+: childPath a c := h ▸ isPrefix_childPath
  exact not_below_both hab isPrefix_childPath hb

end Paths

section Children

variable {c : Name}

theorem mem_getChildren : c ∈ getChildren a files ↔ files[childPath a c]? ≠ none := by
  simp only [getChildren, mem_filterMap, withSeparator_isPrefix_dropWhile]
  constructor
  · rintro ⟨⟨n, h⟩, hn, hc⟩
    rw [Std.ExtTreeMap.mem_toList_iff_getElem?_eq_some] at hn
    split at hc
    case isTrue hpre =>
      rw [← some.inj hc, ← eq_childPath hpre, hn]
      simp
    case isFalse => cases hc
  · intro h
    obtain ⟨k, hk⟩ := ne_none_iff_exists'.mp h
    refine ⟨(childPath a c, k), Std.ExtTreeMap.mem_toList_iff_getElem?_eq_some.mpr hk, ?_⟩
    rw [if_pos isPrefix_childPath]
    exact congrArg some drop_left

theorem nodup_getChildren : (getChildren a files).Nodup := by
  simp only [getChildren, withSeparator_isPrefix_dropWhile]
  refine pairwise_filterMap.mpr (Std.ExtTreeMap.distinct_keys_toList.imp ?_)
  rintro ⟨n, h⟩ ⟨n', h'⟩ hne c hc c' hc' rfl
  split at hc
  case isTrue hpre =>
    split at hc'
    case isTrue hpre' =>
      refine hne (Std.compare_eq_iff_eq.mpr ?_)
      rw [eq_childPath hpre, eq_childPath hpre', some.inj hc, some.inj hc']
    case isFalse => cases hc'
  case isFalse => cases hc

/-- The renames of all children can be made in any order. -/
theorem movable_children (hab : ¬ Nested a b) (T : Name → Option Handle)
    (hT : ∀ n, T n = files[n]?) : Moves.Movable (childMoves a b (getChildren a files)) T := by
  have hself : ∀ c c', childPath a c ≠ childPath b c' := fun c c' => childPath_ne hab
  refine ⟨pairwise_map.mpr (nodup_getChildren.imp fun {c c'} hne => ?_), ?_, ?_⟩
  · exact ⟨fun h => hne (childPath_inj.mp h), fun h => hne (childPath_inj.mp h), hself _ _,
      hself _ _⟩
  · intro m hm
    obtain ⟨c, -, rfl⟩ := mem_map.mp hm
    exact hself c c
  · intro m hm
    obtain ⟨c, hc, rfl⟩ := mem_map.mp hm
    rw [hT]
    exact mem_getChildren.mp hc

end Children

/-- The table of names after directory `a` has become `b`: a file below `a` is found below
`b`, in the place of a file that was there. -/
def movedTree (a b : Name) (T : Name → Option Handle) (n : Name) : Option Handle :=
  if withSeparator b <+: n ∧ T (childPath a (n.drop (withSeparator b).length)) ≠ none then
    T (childPath a (n.drop (withSeparator b).length))
  else if withSeparator a <+: n then none
  else T n

section Tree

/-- Moving the children one by one moves the whole tree. -/
theorem movedAll_children (hab : ¬ Nested a b) (hT : ∀ n, T n = files[n]?) :
    Moves.movedAll T (childMoves a b (getChildren a files)) = movedTree a b T := by
  have hmov := movable_children hab T hT
  have hmem : ∀ c, T (childPath a c) ≠ none →
      (childPath a c, childPath b c) ∈ childMoves a b (getChildren a files) := fun c hc =>
    mem_map.mpr ⟨c, mem_getChildren.mpr (hT _ ▸ hc), rfl⟩
  funext n
  unfold movedTree
  split
  case isTrue h =>
    -- a new path
    have hmove := (Moves.movedAll_move hmov (hmem _ h.2)).2
    rwa [← eq_childPath h.1] at hmove
  case isFalse h =>
    have hdest : ∀ m ∈ childMoves a b (getChildren a files), n ≠ m.2 := by
      rintro m hm rfl
      obtain ⟨c, hc, rfl⟩ := mem_map.mp hm
      refine h ⟨isPrefix_childPath, ?_⟩
      rw [show (childPath b c).drop (withSeparator b).length = c from drop_left, hT]
      exact mem_getChildren.mp hc
    split
    case isTrue ha =>
      -- an old path, or one that never led to a file
      by_cases hn : T n = none
      · rw [Moves.movedAll_of_ne fun m hm => ⟨?_, hdest m hm⟩, hn]
        rintro rfl
        exact hmov.source m hm hn
      · rw [eq_childPath ha] at hn ⊢
        exact (Moves.movedAll_move hmov (hmem _ hn)).1
    case isFalse ha =>
      refine Moves.movedAll_of_ne fun m hm => ⟨?_, hdest m hm⟩
      rintro rfl
      obtain ⟨c, -, rfl⟩ := mem_map.mp hm
      exact ha isPrefix_childPath

end Tree

end ZenFs
