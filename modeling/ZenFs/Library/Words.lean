import Mathlib.Data.List.Basic

/-!
Texts that are cut at separators: into words, and into lines that keep their end.
-/

namespace ZenFs.Library

open List

variable {α : Type} (sep : α → Bool)

/-- The parts between separators that are not empty. -/
def words (text : List α) : List (List α) :=
  (text.splitOnP sep).filter fun piece => !piece.isEmpty

/-- Parts that each end with a separator, except for a last one. -/
def chunks : List α → List (List α)
  | [] => []
  | c :: rest =>
    if sep c then [c] :: chunks rest
    else match chunks rest with
      | [] => [[c]]
      | chunk :: more => (c :: chunk) :: more

def Word (text : List α) : Prop := text ≠ [] ∧ ∀ c ∈ text, sep c = false

instance (text : List α) [DecidableEq α] : Decidable (Word sep text) :=
  inferInstanceAs (Decidable (text ≠ [] ∧ ∀ c ∈ text, sep c = false))

variable {sep}

theorem exists_splitOnP (sep : α → Bool) (text : List α) :
    ∃ first more, text.splitOnP sep = first :: more :=
  exists_cons_of_ne_nil (splitOnP_ne_nil sep text)

theorem splitOnP_cons {c : α} {rest first : List α} {more : List (List α)}
    (hc : sep c = false) (h : rest.splitOnP sep = first :: more) :
    (c :: rest).splitOnP sep = (c :: first) :: more := by
  rw [splitOnP_cons_eq_if_modifyHead, h]
  simp [hc]

theorem splitOnP_append {front back first : List α} {more : List (List α)}
    (h : ∀ c ∈ front, sep c = false) (hback : back.splitOnP sep = first :: more) :
    (front ++ back).splitOnP sep = (front ++ first) :: more := by
  induction front with
  | nil => exact hback
  | cons c rest ih =>
    exact splitOnP_cons (h c mem_cons_self) (ih fun x hx => h x (mem_cons_of_mem _ hx))

theorem flatten_splitOnP (sep : α → Bool) (text : List α) :
    (text.splitOnP sep).flatten = text.filter fun c => !sep c := by
  induction text with
  | nil => rfl
  | cons c rest ih =>
    obtain ⟨first, more, hsplit⟩ := exists_splitOnP sep rest
    rw [splitOnP_cons_eq_if_modifyHead, filter_cons, ← ih, hsplit]
    cases hc : sep c <;> simp

theorem no_sep_of_mem_splitOnP {text piece : List α} {c : α} (h : piece ∈ text.splitOnP sep)
    (hc : c ∈ piece) : sep c = false := by
  have hfilter : c ∈ text.filter fun c => !sep c :=
    flatten_splitOnP sep text ▸ mem_flatten.mpr ⟨piece, h, hc⟩
  simpa using (mem_filter.mp hfilter).2

theorem flatten_words (sep : α → Bool) (text : List α) :
    (words sep text).flatten = text.filter fun c => !sep c := by
  rw [words, flatten_filter_not_isEmpty, flatten_splitOnP]

variable {text word : List α}

theorem mem_of_mem_words {c : α} (h : word ∈ words sep text) (hc : c ∈ word) :
    c ∈ text ∧ sep c = false := by
  have hfilter : c ∈ text.filter fun c => !sep c :=
    flatten_words sep text ▸ mem_flatten.mpr ⟨word, h, hc⟩
  simpa using mem_filter.mp hfilter

theorem word_of_mem (h : word ∈ words sep text) : Word sep word :=
  ⟨by simpa using (mem_filter.mp h).2, fun _ hc => (mem_of_mem_words h hc).2⟩

theorem words_eq_nil_iff : words sep text = [] ↔ ∀ c ∈ text, sep c = true := by
  constructor
  · intro h c hc
    have hfilter : text.filter (fun c => !sep c) = [] := by rw [← flatten_words, h]; rfl
    simpa using filter_eq_nil_iff.mp hfilter c hc
  · intro h
    by_contra hne
    obtain ⟨word, more, hwords⟩ := exists_cons_of_ne_nil hne
    have hmem : word ∈ words sep text := hwords ▸ mem_cons_self
    obtain ⟨c, hc⟩ := exists_mem_of_ne_nil word (word_of_mem hmem).1
    have hsep := mem_of_mem_words hmem hc
    simp [h c hsep.1] at hsep

theorem length_le_of_mem_words (h : word ∈ words sep text) :
    word.length ≤ text.length := by
  obtain ⟨front, back, hwords⟩ := append_of_mem h
  have hlength := congrArg length (flatten_words sep text)
  have hfilter := length_filter_le (fun c => !sep c) text
  rw [hwords] at hlength
  simp only [flatten_append, flatten_cons, length_append] at hlength
  omega

theorem words_append_cons {s : α} (hs : sep s = true) (front back : List α) :
    words sep (front ++ s :: back) = words sep front ++ words sep back := by
  rw [words, splitOnP_append_cons _ _ hs, filter_append, words, words]

theorem words_of_word (h : Word sep text) : words sep text = [text] := by
  rw [words, splitOnP_eq_singleton h.2]
  simp [h.1]

theorem words_intercalate {s : α} (hs : sep s = true) (parts : List (List α)) :
    words sep ([s].intercalate parts) = parts.flatMap (words sep) := by
  induction parts with
  | nil => rfl
  | cons part rest ih =>
    cases rest with
    | nil => simp
    | cons next rest =>
      rw [intercalate_cons_cons, List.append_assoc, singleton_append,
        words_append_cons hs, ih]
      exact flatMap_cons.symm

theorem flatMap_words_words (text : List α) :
    (words sep text).flatMap (words sep) = words sep text := by
  have hwords : ∀ word ∈ words sep text, words sep word = [word] :=
    fun _ h => words_of_word (word_of_mem h)
  rw [flatMap_congr hwords]
  simp

theorem mem_intercalate {s c : α} {parts : List (List α)} (h : c ∈ [s].intercalate parts) :
    c = s ∨ ∃ part ∈ parts, c ∈ part := by
  induction parts with
  | nil => simp at h
  | cons part rest ih =>
    cases rest with
    | nil => exact .inr ⟨part, mem_cons_self, by simpa using h⟩
    | cons next rest =>
      rw [intercalate_cons_cons, List.append_assoc, mem_append, singleton_append,
        mem_cons] at h
      obtain h | h | h := h
      · exact .inr ⟨part, mem_cons_self, h⟩
      · exact .inl h
      · obtain h | ⟨p, hp, hc⟩ := ih h
        · exact .inl h
        · exact .inr ⟨p, mem_cons_of_mem _ hp, hc⟩

theorem words_append_eq_cons_iff {more rest : List (List α)}
    (hmore : ∀ word ∈ more, Word sep word) :
    words sep text ++ more = text :: rest ↔ Word sep text ∧ more = rest := by
  constructor
  · intro h
    have hword : Word sep text := by
      have hmem : text ∈ words sep text ++ more := by rw [h]; exact mem_cons_self
      obtain hmem | hmem := mem_append.mp hmem
      · exact word_of_mem hmem
      · exact hmore text hmem
    rw [words_of_word hword] at h
    exact ⟨hword, (List.cons.inj h).2⟩
  · rintro ⟨hword, rfl⟩
    rw [words_of_word hword]
    rfl

theorem exists_words_eq_cons_iff {front back : List α} :
    (∃ more, words sep (front ++ back) = front :: more) ↔
      Word sep front ∧ ∀ c ∈ back.head?, sep c = true := by
  obtain ⟨first, pieces, hsplit⟩ := exists_splitOnP sep back
  constructor
  · rintro ⟨more, h⟩
    have hword : Word sep front := word_of_mem (h ▸ mem_cons_self)
    rw [words, splitOnP_append hword.2 hsplit, filter_cons_of_pos (by simp [hword.1])] at h
    have hfirst : first = [] := append_right_eq_self.mp (List.cons.inj h).1
    refine ⟨hword, ?_⟩
    cases back with
    | nil => simp
    | cons c rest =>
      intro x hx
      obtain rfl : c = x := by simpa using hx
      by_contra hc
      obtain ⟨next, others, hnext⟩ := exists_splitOnP sep rest
      rw [splitOnP_cons_eq_if_modifyHead, if_neg hc, hnext, hfirst] at hsplit
      exact cons_ne_nil _ _ (List.cons.inj hsplit).1
  · rintro ⟨hword, hback⟩
    cases back with
    | nil => exact ⟨[], by rw [append_nil, words_of_word hword]⟩
    | cons c rest =>
      exact ⟨words sep rest, by rw [words_append_cons (hback c rfl), words_of_word hword]; rfl⟩

theorem chunks_concat_ne_nil (sep : α → Bool) (front : List α) (s : α) :
    chunks sep (front ++ [s]) ≠ [] := by
  cases front with
  | nil =>
    rw [nil_append, chunks]
    split <;> exact cons_ne_nil _ _
  | cons c rest =>
    rw [cons_append, chunks]
    split
    · exact cons_ne_nil _ _
    · split <;> exact cons_ne_nil _ _

theorem chunks_append {s : α} (hs : sep s = true) (front back : List α) :
    chunks sep (front ++ s :: back) = chunks sep (front ++ [s]) ++ chunks sep back := by
  induction front with
  | nil => simp [chunks, hs]
  | cons c rest ih =>
    rw [cons_append, cons_append, chunks, chunks, ih]
    split
    · rfl
    · obtain ⟨chunk, more, hmore⟩ :=
        exists_cons_of_ne_nil (chunks_concat_ne_nil sep rest s)
      rw [hmore]
      rfl

/-- The chunks of a text that ends with the only separator are its pieces. -/
theorem chunks_concat {s : α} (hs : ∀ c, sep c = true ↔ c = s) (text : List α) :
    chunks sep (text ++ [s]) = (text.splitOnP sep).map (· ++ [s]) := by
  induction text with
  | nil => simp [chunks]
  | cons c rest ih =>
    obtain ⟨first, more, hsplit⟩ := exists_splitOnP sep rest
    rw [cons_append, chunks, ih, splitOnP_cons_eq_if_modifyHead, hsplit]
    split
    · next hc =>
      rw [(hs c).mp hc]
      rfl
    · rfl

end ZenFs.Library
