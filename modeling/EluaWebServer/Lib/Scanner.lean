import Mathlib.Data.List.Basic

/-!
# Scanners

A scanner reads a list element by element, carries a state from one to the next, and puts
out some elements for each.  What it puts out for a list that comes in pieces is what it puts
out for the pieces, each from the state the ones before have left.
-/

/-- What an element does to the state, and what is put out for it. -/
structure Scanner (σ α β : Type) where
  step : σ → α → σ × List β

namespace Scanner

variable {σ α β : Type} (m : Scanner σ α β)

/-- The state behind a list. -/
def after (s : σ) : List α → σ
  | [] => s
  | x :: xs => after (m.step s x).1 xs

/-- What is put out for a list. -/
def out (s : σ) : List α → List β
  | [] => []
  | x :: xs => (m.step s x).2 ++ out (m.step s x).1 xs

@[simp] theorem after_nil (s : σ) : m.after s [] = s := rfl

@[simp] theorem out_nil (s : σ) : m.out s [] = [] := rfl

theorem after_cons (s : σ) (x : α) (xs : List α) :
    m.after s (x :: xs) = m.after (m.step s x).1 xs := rfl

theorem out_cons (s : σ) (x : α) (xs : List α) :
    m.out s (x :: xs) = (m.step s x).2 ++ m.out (m.step s x).1 xs := rfl

theorem after_append (s : σ) (xs ys : List α) :
    m.after s (xs ++ ys) = m.after (m.after s xs) ys := by
  induction xs generalizing s with
  | nil => rfl
  | cons x xs ih => exact ih (m.step s x).1

/-- **Pieces.** -/
theorem out_append (s : σ) (xs ys : List α) :
    m.out s (xs ++ ys) = m.out s xs ++ m.out (m.after s xs) ys := by
  induction xs generalizing s with
  | nil => rfl
  | cons x xs ih =>
      rw [List.cons_append, out_cons, out_cons, ih, List.append_assoc]
      rfl

end Scanner
