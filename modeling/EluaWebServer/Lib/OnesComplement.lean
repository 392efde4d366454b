import Mathlib.Data.Nat.ModEq

/-!
# One's complement sums

The Internet checksum adds words with an end-around carry.  Such a sum is the sum modulo `m`, the
largest word, but for zero having two representatives: `0` is the sum of no words but zeros, and `m`
of all others.  So the order of the words does not matter, and adding the complement of a sum makes
it `m`.
-/

namespace OnesComplement

variable {m x y : Nat}

/-- What is left of a sum when the carries have been added to it. -/
def fold (m x : Nat) : Nat := if x = 0 then 0 else (x - 1) % m + 1

theorem fold_of_le (h : x ≤ m) : fold m x = x := by
  unfold fold
  split
  next hx => exact hx.symm
  next hx =>
    rw [Nat.mod_eq_of_lt (by omega)]
    omega

theorem fold_le (hm : 0 < m) (x : Nat) : fold m x ≤ m := by
  have hmod := Nat.mod_lt (x - 1) hm
  unfold fold
  split <;> omega

theorem fold_eq_zero : fold m x = 0 ↔ x = 0 := by
  unfold fold
  split <;> omega

theorem fold_modEq (m x : Nat) : fold m x ≡ x [MOD m] := by
  unfold fold
  split
  next hx => rw [hx]
  next hx =>
    have hsucc : x - 1 + 1 = x := by omega
    calc (x - 1) % m + 1 ≡ x - 1 + 1 [MOD m] := (Nat.mod_modEq _ _).add_right 1
      _ = x := hsucc

/-- Two sums are the same word when they are congruent, and both or none of them is zero. -/
theorem fold_eq_fold (hzero : x = 0 ↔ y = 0) (h : x ≡ y [MOD m]) : fold m x = fold m y := by
  unfold fold
  by_cases hx : x = 0
  · rw [if_pos hx, if_pos (hzero.mp hx)]
  · have hy : y ≠ 0 := fun hy => hx (hzero.mpr hy)
    have hpred : x - 1 ≡ y - 1 [MOD m] := by
      refine Nat.ModEq.add_right_cancel' 1 ?_
      rwa [Nat.sub_add_cancel (by omega), Nat.sub_add_cancel (by omega)]
    rw [if_neg hx, if_neg hy, hpred]

/-- A sum can be folded on the way. -/
theorem fold_fold_add (m x y : Nat) : fold m (fold m x + y) = fold m (x + y) := by
  refine fold_eq_fold ?_ ((fold_modEq m x).add_right y)
  rw [Nat.add_eq_zero_iff, Nat.add_eq_zero_iff, fold_eq_zero]

/-- The sum is zero in one of its two representations. -/
theorem fold_eq_iff_dvd (hm : 0 < m) : fold m x = m ↔ m ∣ x ∧ x ≠ 0 := by
  constructor
  · intro h
    refine ⟨?_, fun hx => ?_⟩
    · have hmod := fold_modEq m x
      rw [h] at hmod
      exact (Nat.modEq_zero_iff_dvd).mp (hmod.symm.trans (by simp [Nat.ModEq]))
    · rw [fold_eq_zero.mpr hx] at h
      omega
  · rintro ⟨hdvd, hx⟩
    have hmod : x ≡ m [MOD m] := ((Nat.modEq_zero_iff_dvd).mpr hdvd).trans (by simp [Nat.ModEq])
    exact (fold_eq_fold (by omega) hmod).trans (fold_of_le (le_refl m))

/-- **The complement.**  A sum with its complement is a multiple of `m`. -/
theorem dvd_add_complement (hm : 0 < m) (x : Nat) : m ∣ x + (m - fold m x) := by
  have hle := fold_le hm x
  refine (Nat.modEq_zero_iff_dvd).mp ?_
  calc x + (m - fold m x) ≡ fold m x + (m - fold m x) [MOD m] := (fold_modEq m x).symm.add_right _
    _ = m := by omega
    _ ≡ 0 [MOD m] := by simp [Nat.ModEq]

/-- The carry out of the word, which is seen from the sum being less than a summand, is added. -/
theorem add_carry {a b : Nat} (ha : a ≤ m) (hb : b ≤ m) :
    (if (a + b) % (m + 1) < b then (a + b) % (m + 1) + 1 else (a + b) % (m + 1)) =
      fold m (a + b) := by
  by_cases hcarry : a + b ≤ m
  · rw [Nat.mod_eq_of_lt (by omega), if_neg (by omega), fold_of_le hcarry]
  · have hsum : (a + b) % (m + 1) = a + b - (m + 1) := by
      rw [Nat.mod_eq_sub_mod (by omega), Nat.mod_eq_of_lt (by omega)]
    rw [hsum, if_pos (by omega), fold, if_neg (by omega), Nat.mod_eq_sub_mod (by omega),
      Nat.mod_eq_of_lt (by omega)]
    omega

/-! ## Words of bytes -/

/-- The bytes taken two at a time, the first being the more significant one.  A last one is
followed by zero. -/
def words : List UInt8 → List Nat
  | [] => []
  | [a] => [a.toNat * 256]
  | a :: b :: bs => (a.toNat * 256 + b.toNat) :: words bs

/-- The sum of the words. -/
def total (bs : List UInt8) : Nat := (words bs).sum

theorem words_append {xs ys : List UInt8} (h : xs.length % 2 = 0) :
    words (xs ++ ys) = words xs ++ words ys := by
  induction xs using words.induct with
  | case1 => rfl
  | case2 a => cases h
  | case3 a b bs ih =>
      have hbs : bs.length % 2 = 0 := by
        simpa [Nat.add_assoc] using h
      simp only [List.cons_append, words, ih hbs]

theorem total_append {xs ys : List UInt8} (h : xs.length % 2 = 0) :
    total (xs ++ ys) = total xs + total ys := by
  rw [total, words_append h, List.sum_append]
  rfl

@[simp] theorem total_pair (a b : UInt8) (bs : List UInt8) :
    total (a :: b :: bs) = a.toNat * 256 + b.toNat + total bs := by
  rw [total, words, List.sum_cons]
  rfl

@[simp] theorem total_nil : total [] = 0 := rfl

theorem total_eq_zero {bs : List UInt8} : total bs = 0 ↔ ∀ b ∈ bs, b = 0 := by
  induction bs using words.induct with
  | case1 => simp
  | case2 a =>
      rw [total, words, List.sum_singleton, List.forall_mem_singleton, ← UInt8.toNat_inj]
      change a.toNat * 256 = 0 ↔ a.toNat = 0
      omega
  | case3 a b bs ih =>
      rw [total_pair, List.forall_mem_cons, List.forall_mem_cons, ← ih, ← UInt8.toNat_inj,
        ← UInt8.toNat_inj]
      change _ ↔ a.toNat = 0 ∧ b.toNat = 0 ∧ _
      omega

/-- Where the words of two sums with the same rest differ, both sums are multiples of `2 ^ 16 - 1`
only if the words are the two representations of zero. -/
theorem eq_or_zero_of_dvd {a b : Nat} (ha : a ≤ m) (hb : b ≤ m) (hx : m ∣ x + a)
    (hy : m ∣ x + b) : a = b ∨ (a = 0 ∧ b = m) ∨ (a = m ∧ b = 0) := by
  obtain ⟨p, hp⟩ := hx
  obtain ⟨q, hq⟩ := hy
  rcases Nat.lt_trichotomy p q with hlt | rfl | hlt
  · have hstep : m * (p + 1) ≤ m * q := Nat.mul_le_mul_left m hlt
    rw [Nat.mul_add, Nat.mul_one] at hstep
    omega
  · omega
  · have hstep : m * (q + 1) ≤ m * p := Nat.mul_le_mul_left m hlt
    rw [Nat.mul_add, Nat.mul_one] at hstep
    omega

end OnesComplement
