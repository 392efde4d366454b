import EluaWebServer.Lib.Ring
import Mathlib.Algebra.BigOperators.Group.Finset.Piecewise
import Mathlib.Algebra.Order.BigOperators.Group.Finset
import Mathlib.Algebra.Order.Group.Nat

/-!
# Sliding windows

The last elements of a stream, with a given element in front of the first ones.
The window moves by one element when one is added, and a full ring holds it
when the new element is written over the oldest one.
-/

namespace Window

variable {α : Type} {n : Nat}

/-- The last `n` elements of `z, z, …` followed by the stream. -/
def last (n : Nat) (z : α) (xs : List α) : List α := (List.replicate n z ++ xs).drop xs.length

@[simp] theorem last_nil (n : Nat) (z : α) : last n z [] = List.replicate n z := by
  simp [last]

@[simp] theorem length_last (n : Nat) (z : α) (xs : List α) : (last n z xs).length = n := by
  simp [last]

/-- The window when it has been filled. -/
theorem last_eq {z : α} {xs : List α} (h : n ≤ xs.length) :
    last n z xs = xs.drop (xs.length - n) := by
  rw [last, List.drop_append, List.length_replicate, List.drop_eq_nil_of_le, List.nil_append]
  rwa [List.length_replicate]

/-- The window moves. -/
theorem last_snoc (hn : 0 < n) (z : α) (xs : List α) (x : α) :
    last n z (xs ++ [x]) = (last n z xs).tail ++ [x] := by
  have hlen : xs.length + 1 ≤ (List.replicate n z ++ xs).length := by
    rw [List.length_append, List.length_replicate]
    omega
  rw [last, last, List.length_append, List.length_singleton, ← List.append_assoc,
    List.drop_append_of_le_length hlen, List.tail_drop]

/-- A full ring is turned by one slot when its oldest element is overwritten. -/
theorem holds_turn {load load' : Nat → α} {r : Nat} {xs : List α} {y : α}
    (h : Ring.Holds load n r xs) (hfull : xs.length = n) (hn : 0 < n) (hy : load' (r % n) = y)
    (hsame : ∀ i, i ≠ r % n → load' i = load i) :
    Ring.Holds load' n (r + 1) (xs.tail ++ [y]) := by
  cases xs with
  | nil =>
      rw [List.length_nil] at hfull
      omega
  | cons x xs =>
      rw [List.length_cons] at hfull
      have hslot : (r + 1 + xs.length) % n = r % n := by
        rw [Nat.add_assoc, Nat.add_comm 1, hfull, Nat.add_mod_right]
      apply h.2.push (by omega)
      · rw [hslot]
        exact hy
      · rw [hslot]
        exact hsame

theorem holds_replicate {load : Nat → α} {z : α} (h : ∀ i, load (i % n) = z) (r k : Nat) :
    Ring.Holds load n r (List.replicate k z) := by
  induction k generalizing r with
  | zero => trivial
  | succ k ih => exact ⟨h _, ih _⟩

open Finset in
/-- A sum when one of its terms is exchanged. -/
theorem sum_update {s : Finset Nat} {i : Nat} (hi : i ∈ s) (f : Nat → Nat) (x : Nat) :
    ∑ j ∈ s, Function.update f i x j + f i = ∑ j ∈ s, f j + x := by
  rw [sum_update_of_mem hi, add_assoc, add_comm (∑ j ∈ s \ {i}, f j),
    ← sum_eq_add_sum_sdiff_singleton_of_mem hi, add_comm]

end Window
