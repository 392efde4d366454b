import Mathlib.Data.List.Basic

/-!
# Bounded buffers

A buffer is a list of fixed length that is read and written by index.  A
store outside the buffer is `none`, so a program that is `some` has written
inside its buffer only.  `splice` is the effect of a run of stores and
`slice` the run of elements at an index.
-/

namespace Buffer

variable {α : Type}

/-- Store one element; `none` when the index lies outside the buffer. -/
def store (b : List α) (p : Nat) (x : α) : Option (List α) :=
  if p < b.length then some (b.set p x) else none

/-- Store a run of elements from an index upwards. -/
def storeAll (b : List α) (p : Nat) : List α → Option (List α)
  | [] => some b
  | x :: xs => (store b p x).bind fun b => storeAll b (p + 1) xs

/-- The buffer with the elements from `p` on replaced by `xs`. -/
def splice (b : List α) (p : Nat) (xs : List α) : List α :=
  b.take p ++ xs ++ b.drop (p + xs.length)

/-- The `n` elements from `p` on. -/
def slice (b : List α) (p n : Nat) : List α :=
  (b.drop p).take n

theorem splice_nil (b : List α) (p : Nat) : splice b p [] = b := by
  simp [splice]

theorem splice_length {b : List α} {p : Nat} {xs : List α}
    (h : p + xs.length ≤ b.length) : (splice b p xs).length = b.length := by
  simp only [splice, List.length_append, List.length_take, List.length_drop]
  omega

theorem splice_cons {b : List α} {p : Nat} {x : α} {xs : List α} (h : p < b.length) :
    splice (b.set p x) (p + 1) xs = splice b p (x :: xs) := by
  have htake : (b.set p x).take (p + 1) = b.take p ++ [x] := by
    rw [List.set_eq_take_append_cons_drop, if_pos h]
    rw [List.take_append, List.length_take, Nat.min_eq_left (by omega)]
    simp [List.take_take]
  have hdrop : (b.set p x).drop (p + 1 + xs.length) = b.drop (p + 1 + xs.length) := by
    rw [List.drop_set_of_lt (by omega)]
  have hlen : p + (x :: xs).length = p + 1 + xs.length := by simp; omega
  simp only [splice, htake, hdrop, hlen, List.append_assoc,
    List.cons_append]
  rfl

/-- A run of stores that fits is a splice. -/
theorem storeAll_eq_splice {b : List α} {p : Nat} {xs : List α}
    (h : p + xs.length ≤ b.length) : storeAll b p xs = some (splice b p xs) := by
  induction xs generalizing b p with
  | nil => simp [storeAll, splice_nil]
  | cons x xs ih =>
      have hp : p < b.length := by simp at h; omega
      rw [storeAll, store, if_pos hp, Option.bind_some,
        ih (by simp at h ⊢; omega), splice_cons hp]

/-- A nonempty run of stores that does not fit is refused. -/
theorem storeAll_eq_none {b : List α} {p : Nat} {xs : List α}
    (h : b.length < p + xs.length) (hne : xs ≠ []) : storeAll b p xs = none := by
  induction xs generalizing b p with
  | nil => exact absurd rfl hne
  | cons x xs ih =>
      rw [storeAll, store]
      split
      · next hp =>
        rw [Option.bind_some]
        refine ih (by simp at h ⊢; omega) ?_
        rintro rfl
        simp at h
        omega
      · rfl

/-- A run of stores that is done has room, and is a splice. -/
theorem storeAll_eq_some {b b' : List α} {p : Nat} {xs : List α} (h : storeAll b p xs = some b') :
    b' = splice b p xs ∧ (xs ≠ [] → p + xs.length ≤ b.length) := by
  by_cases hfits : p + xs.length ≤ b.length
  · rw [storeAll_eq_splice hfits, Option.some_inj] at h
    exact ⟨h.symm, fun _ => hfits⟩
  · by_cases hnil : xs = []
    · subst hnil
      rw [splice_nil]
      exact ⟨(Option.some.inj h).symm, fun hne => absurd rfl hne⟩
    · rw [storeAll_eq_none (Nat.lt_of_not_le hfits) hnil] at h
      cases h

/-- What is in front of the end of a part that has been spliced. -/
theorem take_splice {b : List α} {p : Nat} (h : p ≤ b.length) (xs ys : List α) :
    (splice b p (xs ++ ys)).take (p + xs.length) = b.take p ++ xs := by
  have hp : (b.take p ++ xs).length = p + xs.length := by simp [h]
  simp only [splice, ← List.append_assoc]
  rw [List.append_assoc]
  exact List.take_left' hp

/-- Two adjacent splices are one. -/
theorem splice_splice {b : List α} {p : Nat} (xs ys : List α)
    (h : p + xs.length ≤ b.length) :
    splice (splice b p xs) (p + xs.length) ys = splice b p (xs ++ ys) := by
  have hp : (b.take p).length = p := by simp; omega
  have hhead : (b.take p ++ xs).length = p + xs.length := by simp; omega
  simp only [splice]
  rw [List.take_append_of_le_length (by omega), List.take_of_length_le (by omega),
    List.drop_append, List.drop_of_length_le (l := b.take p ++ xs) (by omega), List.drop_drop,
    hhead, List.length_append]
  simp only [List.append_assoc, List.nil_append]
  congr 3
  congr 1
  omega

/-- A splice at the start that ends where another one begins. -/
theorem splice_zero_splice {b xs ys : List α} (h : xs.length ≤ b.length) :
    splice (splice b xs.length ys) 0 xs = splice b 0 (xs ++ ys) := by
  have hxs : (b.take xs.length).length = xs.length := by simp [h]
  simp only [splice, List.take_zero, List.nil_append, Nat.zero_add, List.append_assoc,
    List.length_append]
  rw [List.drop_append, hxs, List.drop_of_length_le (by omega)]
  simp

theorem storeAll_append (b : List α) (p : Nat) (xs ys : List α) :
    storeAll b p (xs ++ ys) =
      (storeAll b p xs).bind fun b => storeAll b (p + xs.length) ys := by
  induction xs generalizing b p with
  | nil => simp [storeAll]
  | cons x xs ih =>
      simp only [List.cons_append, storeAll, List.length_cons]
      cases store b p x with
      | none => rfl
      | some b' =>
          simp only [Option.bind_some, ih]
          rw [show p + 1 + xs.length = p + (xs.length + 1) by omega]

theorem slice_length {b : List α} {p n : Nat} (h : p + n ≤ b.length) :
    (slice b p n).length = n := by
  simp [slice]
  omega

/-- Reading back what a splice has put into the buffer. -/
theorem slice_splice {b : List α} {p : Nat} {xs : List α} (h : p ≤ b.length) :
    slice (splice b p xs) p xs.length = xs := by
  have hp : (b.take p).length = p := by simp [h]
  simp only [slice, splice, List.append_assoc]
  rw [List.drop_append, hp, List.drop_of_length_le (by omega)]
  simp

/-- Elements outside a splice are as before. -/
theorem getElem?_splice_of_lt {b : List α} {p i : Nat} {xs : List α}
    (h : i < p) (hp : p ≤ b.length) : (splice b p xs)[i]? = b[i]? := by
  simp only [splice, List.append_assoc]
  rw [List.getElem?_append_left (by simp; omega), List.getElem?_take_of_lt h]

theorem getElem?_splice_of_ge {b : List α} {p i : Nat} {xs : List α}
    (h : p + xs.length ≤ i) (hp : p + xs.length ≤ b.length) :
    (splice b p xs)[i]? = b[i]? := by
  simp only [splice]
  rw [List.getElem?_append_right (by simp; omega), List.getElem?_drop]
  congr 1
  simp
  omega

theorem drop_splice {b : List α} {p : Nat} {xs : List α} (h : p + xs.length ≤ b.length) :
    (splice b p xs).drop (p + xs.length) = b.drop (p + xs.length) := by
  have hhead : (b.take p ++ xs).length = p + xs.length := by
    simp
    omega
  rw [splice, List.drop_append, List.drop_of_length_le (by omega), hhead, Nat.sub_self]
  rfl

/-- Storing what is already there changes nothing. -/
theorem splice_slice {b : List α} {p n : Nat} (h : p + n ≤ b.length) :
    splice b p (slice b p n) = b := by
  simp only [splice, slice_length h]
  conv => rhs; rw [← List.take_append_drop (p + n) b]
  rw [List.take_add, slice]

end Buffer
