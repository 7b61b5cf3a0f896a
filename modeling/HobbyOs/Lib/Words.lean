import Mathlib.Data.List.TakeWhile

/-!
# Parts and words

A list cut at a separator (`List.splitOn`): its first part ends where the
separator first is. The words are the parts that are not empty, so that it does
not matter how often a separator is repeated, nor whether one comes first or
last.
-/

namespace Words

variable {α : Type*} [DecidableEq α] {sep : α} {w l : List α}

/-- The words of a list. -/
def words (sep : α) (l : List α) : List (List α) := (l.splitOn sep).filter (· ≠ [])

@[simp] theorem words_nil : words sep [] = [] := rfl

/-- A list without a separator is one word, unless it is empty. -/
theorem words_of_notMem (h : sep ∉ w) : words sep w = if w = [] then [] else [w] := by
  rw [words, List.splitOn_eq_singleton h]
  by_cases hw : w = []
  · simp [hw]
  · simp [hw]

/-- The first word ends at a separator. -/
theorem words_append_cons (hw : w ≠ []) (h : sep ∉ w) : words sep (w ++ sep :: l) = w :: words sep l := by
  rw [words, List.splitOn_append_cons_self_of_not_mem h, List.filter_cons_of_pos (by simpa using hw)]
  rfl

/-- A separator in front does not matter. -/
theorem words_cons_self : words sep (sep :: l) = words sep l := by
  rw [words, ← List.nil_append (sep :: l), List.splitOn_append_cons_self_of_not_mem List.not_mem_nil]
  rfl

/-- Nor do several of them. -/
theorem words_dropWhile : words sep (l.dropWhile (· = sep)) = words sep l := by
  induction l with
  | nil => rfl
  | cons x l ih =>
    by_cases hx : x = sep
    · subst hx
      rw [List.dropWhile_cons_of_pos (by simp), ih, words_cons_self]
    · rw [List.dropWhile_cons_of_neg (by simpa using hx)]

/-- The parts, when the separator is first in front of `rest`. -/
theorem splitOn_of_dropWhile {x : α} {rest : List α} (h : l.dropWhile (· ≠ sep) = x :: rest) :
    x = sep ∧ l.splitOn sep = l.takeWhile (· ≠ sep) :: rest.splitOn sep := by
  have hx : x = sep := by
    have hhead := List.head?_dropWhile_not (· ≠ sep) l
    rw [h] at hhead
    simpa using hhead
  subst hx
  refine ⟨rfl, ?_⟩
  have hsep : x ∉ l.takeWhile (· ≠ x) := fun hmem => by simpa using List.mem_takeWhile_imp hmem
  have hl : l.takeWhile (· ≠ x) ++ x :: rest = l := by
    rw [← h]
    exact List.takeWhile_append_dropWhile
  calc l.splitOn x = (l.takeWhile (· ≠ x) ++ x :: rest).splitOn x := by rw [hl]
    _ = l.takeWhile (· ≠ x) :: rest.splitOn x := List.splitOn_append_cons_self_of_not_mem hsep _

/-- There is one part, when there is no separator. -/
theorem splitOn_of_dropWhile_nil (h : l.dropWhile (· ≠ sep) = []) :
    l.splitOn sep = [l.takeWhile (· ≠ sep)] := by
  have hsep : sep ∉ l := by
    intro hmem
    have := List.dropWhile_eq_nil_iff.1 h sep hmem
    simp at this
  rw [List.splitOn_eq_singleton hsep, List.takeWhile_eq_self_iff.2 (List.dropWhile_eq_nil_iff.1 h)]

end Words
