import Mathlib.Data.List.Basic

/-!
# Fields

A list is cut into fields at a separator.  No field is empty, so that separators in a row count
as one.  When they have been made one and the list ends in one, it is what the fields give when
the separator is put behind each.
-/

namespace Fields

variable {α : Type} {sep : α} {word : List α}

/-- A field, if there is something in it. -/
def close (word : List α) : List (List α) := if word = [] then [] else [word]

theorem ne_nil_of_mem_close {w : List α} (h : w ∈ close word) : w ≠ [] := by
  intro hw
  by_cases hword : word = []
  · simp [close, hword] at h
  · simp only [close, if_neg hword, List.mem_singleton] at h
    exact hword (h.symm.trans hw)

/-- Each field with the separator behind it. -/
def joined (sep : α) (words : List (List α)) : List α := words.flatMap (· ++ [sep])

theorem joined_cons (sep : α) (w : List α) (ws : List (List α)) :
    joined sep (w :: ws) = w ++ sep :: joined sep ws := by
  simp [joined]

variable [DecidableEq α]

/-- The fields of a list, with what the first one has already. -/
def fields (sep : α) (word : List α) : List α → List (List α)
  | [] => close word
  | x :: xs =>
      if x = sep then close word ++ fields sep [] xs else fields sep (word ++ [x]) xs

/-- The list without the separators that come right behind another one. -/
def squeeze (sep : α) (behind : Bool) : List α → List α
  | [] => []
  | x :: xs =>
      if x = sep then
        if behind then squeeze sep true xs else x :: squeeze sep true xs
      else x :: squeeze sep false xs

/-- **Joining.** -/
theorem append_squeeze (word xs : List α) :
    word ++ squeeze sep (decide (word = [])) (xs ++ [sep]) =
      joined sep (fields sep word (xs ++ [sep])) := by
  induction xs generalizing word with
  | nil =>
      by_cases hword : word = []
      · simp [squeeze, fields, close, joined, hword]
      · simp [squeeze, fields, close, joined, hword]
  | cons x xs ih =>
      by_cases hx : x = sep
      · have hrest := ih []
        by_cases hword : word = []
        · simpa [squeeze, fields, close, hx, hword] using hrest
        · simpa [squeeze, fields, close, hx, hword, joined_cons] using hrest
      · have hrest := ih (word ++ [x])
        simpa [squeeze, fields, hx] using hrest

/-- A list that begins behind a separator. -/
theorem squeeze_eq_joined (xs : List α) :
    squeeze sep true (xs ++ [sep]) = joined sep (fields sep [] (xs ++ [sep])) := by
  simpa using append_squeeze (α := α) [] xs

/-- What a separator in front is good for. -/
theorem squeeze_false (xs : List α) :
    squeeze sep false xs = squeeze sep true xs ∨
      squeeze sep false xs = sep :: squeeze sep true xs := by
  cases xs with
  | nil => exact .inl rfl
  | cons x xs =>
      by_cases hx : x = sep
      · exact .inr (by simp [squeeze, hx])
      · exact .inl (by simp [squeeze, hx])

theorem squeeze_false_ne_nil {xs : List α} (h : xs ≠ []) : squeeze sep false xs ≠ [] := by
  cases xs with
  | nil => exact h
  | cons x xs =>
      by_cases hx : x = sep
      · simp [squeeze, hx]
      · simp [squeeze, hx]

/-- No field is empty. -/
theorem ne_nil_of_mem {xs w : List α} (h : w ∈ fields sep word xs) : w ≠ [] := by
  induction xs generalizing word with
  | nil => exact ne_nil_of_mem_close h
  | cons x xs ih =>
      by_cases hx : x = sep
      · simp only [fields, if_pos hx, List.mem_append] at h
        exact h.elim ne_nil_of_mem_close ih
      · simp only [fields, if_neg hx] at h
        exact ih h

/-- The first field, and the others behind the separator. -/
theorem takeWhile_joined {w : List α} (h : sep ∉ w) (ws : List (List α)) :
    (joined sep (w :: ws)).takeWhile (· ≠ sep) = w ∧
      (joined sep (w :: ws)).dropWhile (· ≠ sep) = sep :: joined sep ws := by
  have hw : ∀ x ∈ w, decide (x ≠ sep) = true := by
    intro x hx
    exact decide_eq_true fun hsep => h (hsep ▸ hx)
  rw [joined_cons]
  constructor
  · rw [List.takeWhile_append_of_pos hw]
    simp
  · rw [List.dropWhile_append_of_pos hw]
    simp

end Fields
