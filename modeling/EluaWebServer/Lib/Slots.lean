import Mathlib.Data.Fintype.Card
import Mathlib.Data.List.FinRange

/-!
# Tables of slots

A table has `n` slots, and a predicate on what a slot holds says that it is
free.  The slots in use are counted, and the number changes by one when a slot
is filled or cleared.
-/

namespace Slots

variable {n : Nat} {α : Type} {free : α → Prop} [DecidablePred free]

/-- The slots in use. -/
def used (free : α → Prop) [DecidablePred free] (t : Fin n → α) : Finset (Fin n) :=
  Finset.univ.filter fun i => ¬ free (t i)

/-- The first slot that is free. -/
def findEmpty (free : α → Prop) [DecidablePred free] (t : Fin n → α) : Option (Fin n) :=
  (List.finRange n).find? fun i => free (t i)

variable {t : Fin n → α} {i : Fin n} {a : α}

theorem mem_used : i ∈ used free t ↔ ¬ free (t i) := by simp [used]

theorem free_of_findEmpty (h : findEmpty free t = some i) : free (t i) := by
  have hfound := List.find?_some h
  exact of_decide_eq_true hfound

theorem findEmpty_eq_none : findEmpty free t = none ↔ ∀ i, ¬ free (t i) := by
  simp [findEmpty]

theorem used_eq_empty (h : ∀ i, free (t i)) : used free t = ∅ := by
  simp [used, h]

/-- As many slots are in use as there are exactly when none is free. -/
theorem card_used_eq_iff : (used free t).card = n ↔ ∀ i, ¬ free (t i) := by
  have hcard := Finset.card_eq_iff_eq_univ (used free t)
  rw [Fintype.card_fin] at hcard
  rw [hcard, Finset.eq_univ_iff_forall]
  exact forall_congr' fun i => mem_used

theorem used_update_fill (ha : ¬ free a) :
    used free (Function.update t i a) = insert i (used free t) := by
  ext j
  by_cases hj : j = i
  · subst hj
    simp [mem_used, ha]
  · simp [mem_used, hj]

theorem used_update_clear (ha : free a) :
    used free (Function.update t i a) = (used free t).erase i := by
  ext j
  by_cases hj : j = i
  · subst hj
    simp [mem_used, ha]
  · simp [mem_used, hj]

/-- A free slot is filled. -/
theorem card_used_fill (hi : free (t i)) (ha : ¬ free a) :
    (used free (Function.update t i a)).card = (used free t).card + 1 := by
  rw [used_update_fill ha]
  apply Finset.card_insert_of_notMem
  rw [mem_used, not_not]
  exact hi

/-- A slot in use is cleared. -/
theorem card_used_clear (hi : ¬ free (t i)) (ha : free a) :
    (used free (Function.update t i a)).card + 1 = (used free t).card := by
  rw [used_update_clear ha]
  exact Finset.card_erase_add_one (mem_used.mpr hi)

end Slots
