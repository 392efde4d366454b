import Mathlib.Data.List.Basic

/-!
# Ring buffers

The elements of a queue in the slots of a ring of `n` slots.  Positions count
on without end, and position `p` is in slot `p % n`.  `Holds` says that the
elements of a list are in the slots from a position on; reading the first and
writing behind the last keep it, the latter while there is a free slot.
-/

namespace Ring

variable {β : Type} {n : Nat}

/-- The elements of the list are in the slots from position `r` on. -/
def Holds (load : Nat → β) (n : Nat) : Nat → List β → Prop
  | _, [] => True
  | r, x :: xs => load (r % n) = x ∧ Holds load n (r + 1) xs

/-- Less than one turn apart, positions have different slots. -/
theorem slot_ne {p q : Nat} (hlt : p < q) (hturn : q < p + n) : p % n ≠ q % n := by
  intro heq
  have hzero : (q - p) % n = 0 := Nat.sub_mod_eq_zero_of_mod_eq heq.symm
  rw [Nat.mod_eq_of_lt (by omega)] at hzero
  omega

/-- Only the occupied slots matter. -/
theorem Holds.congr {load load' : Nat → β} {r : Nat} {xs : List β} (h : Holds load n r xs)
    (hsame : ∀ k, k < xs.length → load' ((r + k) % n) = load ((r + k) % n)) :
    Holds load' n r xs := by
  induction xs generalizing r with
  | nil => trivial
  | cons x xs ih =>
      obtain ⟨hx, hxs⟩ := h
      refine ⟨(hsame 0 (by simp)).trans hx, ih hxs fun k hk => ?_⟩
      have hnext := hsame (k + 1) (by simpa using hk)
      rwa [← Nat.add_assoc, Nat.add_right_comm] at hnext

theorem holds_append {load : Nat → β} {r : Nat} {xs ys : List β} :
    Holds load n r (xs ++ ys) ↔ Holds load n r xs ∧ Holds load n (r + xs.length) ys := by
  induction xs generalizing r with
  | nil => exact ⟨fun h => ⟨trivial, h⟩, fun h => h.2⟩
  | cons x xs ih =>
      have hpos : r + (x :: xs).length = r + 1 + xs.length := by
        rw [List.length_cons]
        omega
      rw [List.cons_append, Holds, ih, Holds, and_assoc, hpos]

/-- The list, from its slots. -/
theorem Holds.map_range {load : Nat → β} {r : Nat} {xs : List β} (h : Holds load n r xs) :
    (List.range xs.length).map (fun k => load ((r + k) % n)) = xs := by
  induction xs generalizing r with
  | nil => rfl
  | cons x xs ih =>
      obtain ⟨hx, hxs⟩ := h
      rw [List.length_cons, List.range_succ_eq_map, List.map_cons, List.map_map, Nat.add_zero, hx]
      refine congrArg (List.cons x) (Eq.trans (List.map_congr_left fun k _ => ?_) (ih hxs))
      rw [Function.comp_apply, Nat.succ_eq_add_one, ← Nat.add_assoc, Nat.add_right_comm]

/-- A number of slots, as a list. -/
theorem holds_map_range (load : Nat → β) (n r k : Nat) :
    Holds load n r ((List.range k).map fun j => load ((r + j) % n)) := by
  induction k generalizing r with
  | zero => trivial
  | succ k ih =>
      rw [List.range_succ_eq_map, List.map_cons, List.map_map]
      refine ⟨rfl, ?_⟩
      have hnext := ih (r + 1)
      simp only [Nat.add_assoc, Nat.add_comm 1] at hnext
      exact hnext

/-- When the slots behind the elements do not pass a test that the elements
pass, the elements are the slots that pass it. -/
theorem Holds.filter_range {load : Nat → β} {p : β → Bool} {r : Nat} {xs : List β}
    (h : Holds load n r xs) (hle : xs.length ≤ n) (hpass : ∀ x ∈ xs, p x = true)
    (hfree : ∀ k, xs.length ≤ k → k < n → p (load ((r + k) % n)) = false) :
    ((List.range n).map fun k => load ((r + k) % n)).filter p = xs := by
  obtain ⟨m, rfl⟩ := Nat.exists_eq_add_of_le hle
  have hrest : ((List.range m).map fun k => load ((r + (xs.length + k)) % (xs.length + m))).filter p
      = [] := by
    refine List.filter_eq_nil_iff.mpr fun x hx => ?_
    obtain ⟨k, hk, rfl⟩ := List.mem_map.mp hx
    have hlt := List.mem_range.mp hk
    rw [hfree (xs.length + k) (Nat.le_add_right _ _) (by omega)]
    exact Bool.false_ne_true
  rw [List.range_add, List.map_append, List.map_map, List.filter_append, h.map_range,
    List.filter_eq_self.mpr hpass]
  exact (congrArg (xs ++ ·) hrest).trans (List.append_nil xs)

/-- In a full ring every slot has an element. -/
theorem Holds.mem_of_full {load : Nat → β} {r : Nat} {xs : List β} (h : Holds load n r xs)
    (hfull : xs.length = n) {i : Nat} (hi : i < n) : load i ∈ xs := by
  have hpos : 0 < n := by omega
  have hslot : (r + (i + (n - r % n)) % n) % n = i := by
    have hlt := Nat.mod_lt r hpos
    rw [Nat.add_mod_mod, show r + (i + (n - r % n)) = i + n * (r / n + 1) by
      have := Nat.div_add_mod r n
      rw [Nat.mul_succ]
      omega, Nat.add_mul_mod_self_left, Nat.mod_eq_of_lt hi]
  have hlt : (i + (n - r % n)) % n < xs.length := by
    rw [hfull]
    exact Nat.mod_lt _ hpos
  have hmem : load ((r + (i + (n - r % n)) % n) % n) ∈
      (List.range xs.length).map fun k => load ((r + k) % n) :=
    List.mem_map.mpr ⟨_, List.mem_range.mpr hlt, rfl⟩
  rwa [hslot, h.map_range] at hmem

theorem Holds.mem {load : Nat → β} {r : Nat} {xs : List β} (h : Holds load n r xs) {x : β}
    (hx : x ∈ xs) : ∃ p, load (p % n) = x ∧ r ≤ p ∧ p < r + xs.length := by
  induction xs generalizing r with
  | nil => cases hx
  | cons y ys ih =>
      rcases List.mem_cons.mp hx with rfl | hx
      · exact ⟨r, h.1, Nat.le_refl r, by rw [List.length_cons]; omega⟩
      · obtain ⟨p, hp, hlo, hhi⟩ := ih h.2 hx
        exact ⟨p, hp, by omega, by rw [List.length_cons]; omega⟩

/-- What holds of different slots holds of different elements. -/
theorem Holds.pairwise {load : Nat → β} {rel : β → β → Prop} {r : Nat} {xs : List β}
    (h : Holds load n r xs) (hle : xs.length ≤ n)
    (hrel : ∀ p q, p % n ≠ q % n → rel (load (p % n)) (load (q % n))) : xs.Pairwise rel := by
  induction xs generalizing r with
  | nil => exact .nil
  | cons x xs ih =>
      rw [List.length_cons] at hle
      refine List.pairwise_cons.mpr ⟨fun y hy => ?_, ih h.2 (by omega)⟩
      obtain ⟨q, hq, hlo, hhi⟩ := h.2.mem hy
      rw [← h.1, ← hq]
      exact hrel r q (slot_ne (by omega) (by omega))

/-- Writing behind the last element, into a slot that is free. -/
theorem Holds.push {load load' : Nat → β} {r : Nat} {xs : List β} {x : β}
    (h : Holds load n r xs) (hroom : xs.length < n)
    (hx : load' ((r + xs.length) % n) = x)
    (hsame : ∀ i, i ≠ (r + xs.length) % n → load' i = load i) :
    Holds load' n r (xs ++ [x]) := by
  refine holds_append.mpr ⟨h.congr fun k hk => hsame _ ?_, hx, trivial⟩
  exact slot_ne (by omega) (by omega)

end Ring
