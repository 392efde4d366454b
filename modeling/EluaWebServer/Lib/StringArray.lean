import EluaWebServer.Lib.Buffer
import Mathlib.Data.List.Infix

/-!
# C strings in arrays

`strncpy` and `strncat` on an array of fixed length.  What would be read or stored outside of the
array is `none`.  `Holds` says that an array holds a string with its terminator.
-/

namespace StringArray

open Buffer

/-- `strlen`. -/
def strlen (a : List UInt8) : Option Nat := a.findIdx? (· = 0)

/-- `strncpy`, from a string. -/
def strncpy (a src : List UInt8) (n : Nat) : Option (List UInt8) :=
  storeAll a 0 (src.take n ++ List.replicate (n - src.length) 0)

/-- `strncat`, from a string. -/
def strncat (a src : List UInt8) (n : Nat) : Option (List UInt8) :=
  (strlen a).bind fun len => storeAll a len (src.take n ++ [0])

/-- An array of `size` bytes holds a string. -/
def Holds (size : Nat) (a xs : List UInt8) : Prop :=
  0 ∉ xs ∧ ∃ ys, a = xs ++ 0 :: ys ∧ a.length = size

variable {size n : Nat} {a xs ys src : List UInt8}

theorem strlen_append (h : 0 ∉ xs) : strlen (xs ++ 0 :: ys) = some xs.length := by
  induction xs with
  | nil => rfl
  | cons x xs ih =>
      rw [List.mem_cons, not_or] at h
      have hx : decide (x = 0) = false := decide_eq_false (Ne.symm h.1)
      have htail := ih h.2
      rw [strlen] at htail ⊢
      rw [List.cons_append, List.findIdx?_cons, hx, htail]
      rfl

theorem Holds.strlen (h : Holds size a xs) : strlen a = some xs.length := by
  obtain ⟨hnul, ys, rfl, -⟩ := h
  exact strlen_append hnul

/-- An array holds one string. -/
theorem Holds.unique (h : Holds size a xs) (h' : Holds size a ys) : xs = ys := by
  have hlen := h.strlen.symm.trans h'.strlen
  obtain ⟨-, t, ha, -⟩ := h
  obtain ⟨-, t', ha', -⟩ := h'
  exact (List.append_inj (ha.symm.trans ha') (Option.some.inj hlen)).1

theorem Holds.length_lt (h : Holds size a xs) : xs.length < size := by
  obtain ⟨-, ys, rfl, hsize⟩ := h
  rw [List.length_append, List.length_cons] at hsize
  omega

/-- The character before the terminator. -/
theorem Holds.getElem?_pred (h : Holds size a xs) (hne : xs ≠ []) :
    a[xs.length - 1]? = xs.getLast? := by
  obtain ⟨-, ys, rfl, -⟩ := h
  have hpos := List.length_pos_of_ne_nil hne
  rw [List.getElem?_append_left (by omega), List.getLast?_eq_getElem?]

/-- Copying all but the last byte, which is a zero. -/
theorem holds_strncpy (hlen : a.length = n + 1) (hlast : a[n]? = some 0) (h : 0 ∉ src) :
    ∃ a', strncpy a src n = some a' ∧ Holds (n + 1) a' (src.take n) := by
  have hdata : (src.take n ++ List.replicate (n - src.length) 0).length = n := by
    rw [List.length_append, List.length_take, List.length_replicate]
    omega
  have hdrop : a.drop n = [0] := by
    rw [List.drop_eq_getElem_cons (by omega), List.drop_of_length_le (by omega)]
    rw [List.getElem?_eq_getElem (by omega), Option.some.injEq] at hlast
    rw [hlast]
  rw [strncpy, storeAll_eq_splice (by rw [hdata]; omega), splice, hdata, Nat.zero_add, hdrop,
    List.take_zero, List.nil_append]
  refine ⟨_, rfl, fun hmem => h (List.mem_of_mem_take hmem), ?_⟩
  refine ⟨List.replicate (n - src.length) 0, ?_, ?_⟩
  · rw [List.append_assoc, ← List.replicate_succ', List.replicate_succ]
  · rw [List.length_append, hdata, List.length_singleton]

/-- Appending what there is room for. -/
theorem Holds.strncat (h : Holds size a xs) (hsrc : 0 ∉ src)
    (hfits : xs.length + (src.take n).length < size) :
    ∃ a', StringArray.strncat a src n = some a' ∧ Holds size a' (xs ++ src.take n) := by
  have hlen := h.strlen
  obtain ⟨hnul, ys, ha, hsize⟩ := h
  have hroom : xs.length + (src.take n ++ [0]).length ≤ a.length := by
    rw [List.length_append, List.length_singleton]
    omega
  have htake : a.take xs.length = xs := by rw [ha, List.take_left]
  rw [StringArray.strncat, hlen, Option.bind_some, storeAll_eq_splice hroom]
  refine ⟨_, rfl, fun hmem => ?_, a.drop (xs.length + (src.take n ++ [0]).length), ?_, ?_⟩
  · rcases List.mem_append.mp hmem with hxs | hs
    · exact hnul hxs
    · exact hsrc (List.mem_of_mem_take hs)
  · rw [splice, htake]
    simp only [List.append_assoc, List.singleton_append]
  · rw [splice_length hroom, hsize]

/-- Appending what there is no room for stores outside of the array. -/
theorem Holds.strncat_eq_none (h : Holds size a xs)
    (hfits : size ≤ xs.length + (src.take n).length) : StringArray.strncat a src n = none := by
  rw [StringArray.strncat, h.strlen, Option.bind_some]
  refine storeAll_eq_none ?_ (List.append_ne_nil_of_right_ne_nil _ (List.cons_ne_nil _ _))
  obtain ⟨-, ys, -, hsize⟩ := h
  rw [hsize, List.length_append, List.length_singleton]
  omega

end StringArray
