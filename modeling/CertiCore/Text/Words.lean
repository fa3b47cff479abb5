import Mathlib.Data.List.TakeWhile

/-!
# Words

The words of a text are its maximal runs of elements that are not separators.
-/

namespace Text

variable {α : Type} {sep : α → Bool} {l w r : List α} {c : α}

/-- The words of `l`, in order. -/
def words (sep : α → Bool) (l : List α) : List (List α) :=
  (l.splitOnP sep).filter fun w => !w.isEmpty

/-- `w` begins a text that goes on with `r`, and is its first word. -/
structure FirstWord (sep : α → Bool) (w r : List α) : Prop where
  ne_nil : w ≠ []
  not_sep : ∀ c ∈ w, sep c = false
  /-- The word is not followed by an element that would make it longer. -/
  head_sep : ∀ c r', r = c :: r' → sep c = true

@[simp] theorem words_nil : words sep [] = [] := rfl

theorem words_cons_of_sep (h : sep c = true) : words sep (c :: l) = words sep l := by
  rw [words, List.splitOnP_cons_eq_if_modifyHead, if_pos h]
  rfl

theorem FirstWord.words_append (h : FirstWord sep w r) :
    words sep (w ++ r) = w :: words sep r := by
  have hkeep : (!w.isEmpty) = true := by simpa using h.ne_nil
  cases r with
  | nil =>
    rw [List.append_nil, words, List.splitOnP_eq_singleton h.not_sep, List.filter_cons,
      if_pos hkeep]
    rfl
  | cons c r =>
    have hsep := h.head_sep c r rfl
    rw [words, List.splitOnP_append_cons_of_forall_mem h.not_sep c hsep,
      List.filter_cons, if_pos hkeep, words_cons_of_sep hsep]
    rfl

/-- A text is empty, or begins with a separator, or begins with a word. -/
theorem words_cases (sep : α → Bool) (l : List α) :
    l = [] ∨ (∃ c r, sep c = true ∧ l = c :: r) ∨ ∃ w r, FirstWord sep w r ∧ l = w ++ r := by
  rcases l with _ | ⟨c, l⟩
  · exact Or.inl rfl
  cases hc : sep c with
  | true => exact Or.inr (Or.inl ⟨c, l, hc, rfl⟩)
  | false =>
    refine Or.inr (Or.inr ⟨(c :: l).takeWhile fun x => !sep x, (c :: l).dropWhile fun x => !sep x,
      ⟨?_, fun x hx => ?_, fun x r hr => ?_⟩, List.takeWhile_append_dropWhile.symm⟩)
    · rw [List.takeWhile_cons_of_pos (by simpa using hc)]
      exact List.cons_ne_nil _ _
    · simpa using List.mem_takeWhile_imp hx
    · have hhead := List.head?_dropWhile_not (fun x => !sep x) (c :: l)
      rw [hr] at hhead
      simpa using hhead

end Text
