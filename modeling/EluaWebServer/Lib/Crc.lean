import Mathlib.Algebra.Polynomial.Div
import Mathlib.Data.ZMod.Defs
import Mathlib.Algebra.Field.ZMod
import Mathlib.Algebra.CharP.Two
import Mathlib.Tactic.LinearCombination

/-!
# Cyclic redundancy codes

The bits of a word are the coefficients of a polynomial over the field of two
elements.  The code of a message is the remainder of its polynomial times `X ^ w`
by a generator of degree `w`; it is computed in a register of `w` bits that is
shifted to the left.
-/

namespace Crc

open Polynomial

variable {w : Nat}

/-- The polynomial of a word. -/
noncomputable def poly (b : BitVec w) : (ZMod 2)[X] :=
  ∑ i ∈ Finset.range w, if b.getLsbD i then X ^ i else 0

theorem coeff_poly (b : BitVec w) (i : Nat) :
    (poly b).coeff i = if b.getLsbD i then 1 else 0 := by
  rw [poly, finsetSum_coeff]
  by_cases hi : i < w
  · rw [Finset.sum_eq_single i]
    · split
      · exact coeff_X_pow_self i
      · exact coeff_zero i
    · intro j _ hj
      split
      · rw [coeff_X_pow, if_neg (Ne.symm hj)]
      · exact coeff_zero i
    · exact fun h => absurd (Finset.mem_range.mpr hi) h
  · rw [BitVec.getLsbD_of_ge b i (by omega), if_neg Bool.false_ne_true]
    apply Finset.sum_eq_zero
    intro j hj
    have hne : i ≠ j := by
      have := Finset.mem_range.mp hj
      omega
    split
    · rw [coeff_X_pow, if_neg hne]
    · exact coeff_zero i

theorem degree_poly_lt (b : BitVec w) : (poly b).degree < w := by
  rw [degree_lt_iff_coeff_zero]
  intro i hi
  rw [coeff_poly, BitVec.getLsbD_of_ge b i hi, if_neg Bool.false_ne_true]

theorem poly_injective {a b : BitVec w} (h : poly a = poly b) : a = b := by
  apply BitVec.eq_of_getLsbD_eq
  intro i _
  have hcoeff := congrArg (coeff · i) h
  simp only [coeff_poly] at hcoeff
  revert hcoeff
  cases a.getLsbD i <;> cases b.getLsbD i <;> simp

theorem poly_xor (a b : BitVec w) : poly (a ^^^ b) = poly a + poly b := by
  ext i
  rw [coeff_add, coeff_poly, coeff_poly, coeff_poly, BitVec.getLsbD_xor]
  cases a.getLsbD i <;> cases b.getLsbD i <;> decide

theorem poly_zero : poly (0 : BitVec w) = 0 := by
  ext i
  simp [coeff_poly]

/-- Bits that are moved up where there is room for them. -/
theorem poly_setWidth_shiftLeft {v : Nat} (b : BitVec v) (h : v ≤ w) :
    poly (b.setWidth w <<< (w - v)) = poly b * X ^ (w - v) := by
  ext i
  rw [coeff_mul_X_pow', coeff_poly, coeff_poly, BitVec.getLsbD_shiftLeft, BitVec.getLsbD_setWidth]
  by_cases hi : w - v ≤ i
  · by_cases hw : i < w
    · have hlt : i - (w - v) < w := by omega
      simp [hi, hw, hlt, Nat.not_lt.mpr hi]
    · rw [BitVec.getLsbD_of_ge b (i - (w - v)) (by omega)]
      simp [hw]
  · simp [hi, Nat.lt_of_not_le hi]

/-- The generator whose coefficients below `X ^ w` are those of a word. -/
noncomputable def generator (g : BitVec w) : (ZMod 2)[X] := X ^ w + poly g

theorem monic_generator (g : BitVec w) : (generator g).Monic :=
  monic_X_pow_add (degree_poly_lt g)

theorem degree_generator (g : BitVec w) : (generator g).degree = w := by
  have hlt : (poly g).degree < (X ^ w : (ZMod 2)[X]).degree := by
    rw [degree_X_pow]
    exact degree_poly_lt g
  rw [generator, degree_add_eq_left_of_degree_lt hlt, degree_X_pow]

/-- One step of the division. -/
def shift (g r : BitVec w) : BitVec w :=
  if r.msb then (r <<< 1) ^^^ g else r <<< 1

theorem X_mul_poly (r : BitVec w) :
    X * poly r = poly (r <<< 1) + if r.msb then X ^ w else 0 := by
  ext i
  have htop : (if r.msb then X ^ w else 0 : (ZMod 2)[X]).coeff i =
      if r.getLsbD (w - 1) && decide (i = w) then 1 else 0 := by
    rw [BitVec.msb_eq_getLsbD_last]
    cases r.getLsbD (w - 1) <;> simp [coeff_X_pow]
  rw [coeff_add, coeff_poly, BitVec.getLsbD_shiftLeft, htop]
  cases i with
  | zero =>
      cases w with
      | zero => simp [BitVec.of_length_zero]
      | succ w => simp
  | succ i =>
      rw [coeff_X_mul, coeff_poly, Nat.add_sub_cancel]
      by_cases hlt : i + 1 < w
      · have hne : i + 1 ≠ w := Nat.ne_of_lt hlt
        simp [hlt, hne]
      · by_cases hlast : i + 1 = w
        · subst hlast
          simp
        · rw [BitVec.getLsbD_of_ge r i (by omega)]
          simp [hlt, hlast]

/-- Adding the generator removes the highest bit. -/
theorem X_mul_poly_eq_shift (g r : BitVec w) :
    X * poly r = poly (shift g r) + if r.msb then generator g else 0 := by
  rw [X_mul_poly, shift]
  by_cases hmsb : r.msb
  · have hcancel : poly g + poly g = 0 := CharTwo.add_self_eq_zero _
    rw [if_pos hmsb, if_pos hmsb, if_pos hmsb, poly_xor, generator]
    linear_combination -hcancel
  · rw [if_neg hmsb, if_neg hmsb, if_neg hmsb]

/-- A word and a polynomial are the same up to multiples of the generator. -/
def Congruent (g : BitVec w) (P : (ZMod 2)[X]) (r : BitVec w) : Prop :=
  generator g ∣ P - poly r

variable {g r : BitVec w} {P : (ZMod 2)[X]}

theorem congruent_zero (g : BitVec w) : Congruent g 0 0 := by
  rw [Congruent, poly_zero, sub_zero]
  exact dvd_zero _

theorem Congruent.xor (h : Congruent g P r) (a : BitVec w) :
    Congruent g (P + poly a) (r ^^^ a) := by
  rw [Congruent, poly_xor, add_sub_add_right_eq_sub]
  exact h

theorem Congruent.shift (h : Congruent g P r) : Congruent g (X * P) (shift g r) := by
  have hone : generator g ∣ if r.msb then generator g else 0 := by
    split
    · exact dvd_rfl
    · exact dvd_zero _
  have hsub : X * P - poly (Crc.shift g r) =
      X * (P - poly r) + if r.msb then generator g else 0 := by
    rw [mul_sub, X_mul_poly_eq_shift g r]
    ring
  rw [Congruent, hsub]
  exact dvd_add (Dvd.dvd.mul_left h X) hone

theorem Congruent.shifts (h : Congruent g P r) (n : Nat) :
    Congruent g (X ^ n * P) ((Crc.shift g)^[n] r) := by
  induction n with
  | zero =>
      rw [pow_zero, one_mul]
      exact h
  | succ n ih =>
      rw [Function.iterate_succ_apply', pow_succ', mul_assoc]
      exact ih.shift

/-- **The remainder.**  A word that a polynomial is congruent to is the remainder. -/
theorem Congruent.modByMonic (h : Congruent g P r) : P %ₘ generator g = poly r := by
  rw [modByMonic_eq_of_dvd_sub (monic_generator g) h,
    modByMonic_eq_self_iff (monic_generator g), degree_generator]
  exact degree_poly_lt r

/-! ## Messages of bytes -/

/-- The polynomial of a message, the first byte in the highest powers. -/
noncomputable def message (bytes : List UInt8) : (ZMod 2)[X] :=
  bytes.foldl (fun P b => X ^ 8 * P + poly b.toBitVec) 0

/-- A byte goes into the register at the top, and is shifted out. -/
def byte (g r : BitVec w) (b : UInt8) : BitVec w :=
  (shift g)^[8] (r ^^^ (b.toBitVec.setWidth w <<< (w - 8)))

/-- The code of a message. -/
def code (g : BitVec w) (bytes : List UInt8) : BitVec w := bytes.foldl (byte g) 0

theorem Congruent.byte (hw : 8 ≤ w) (h : Congruent g (P * X ^ w) r) (b : UInt8) :
    Congruent g ((X ^ 8 * P + poly b.toBitVec) * X ^ w) (byte g r b) := by
  have hshifts := (h.xor (b.toBitVec.setWidth w <<< (w - 8))).shifts 8
  rw [poly_setWidth_shiftLeft _ hw] at hshifts
  have hpow : X ^ w = (X ^ 8 * X ^ (w - 8) : (ZMod 2)[X]) := by
    rw [← pow_add, Nat.add_sub_cancel' hw]
  have hsum : (X ^ 8 * P + poly b.toBitVec) * X ^ w =
      X ^ 8 * (P * X ^ w + poly b.toBitVec * X ^ (w - 8)) := by
    rw [hpow]
    ring
  rw [hsum]
  exact hshifts

theorem congruent_foldl (hw : 8 ≤ w) (bytes : List UInt8) (h : Congruent g (P * X ^ w) r) :
    Congruent g (bytes.foldl (fun P b => X ^ 8 * P + poly b.toBitVec) P * X ^ w)
      (bytes.foldl (byte g) r) := by
  induction bytes generalizing P r with
  | nil => exact h
  | cons b bytes ih => exact ih (h.byte hw b)

/-- **The code of a message** is the remainder of the message times `X ^ w`. -/
theorem message_modByMonic (hw : 8 ≤ w) (g : BitVec w) (bytes : List UInt8) :
    (message bytes * X ^ w) %ₘ generator g = poly (code g bytes) := by
  apply Congruent.modByMonic
  apply congruent_foldl hw
  rw [zero_mul]
  exact congruent_zero g

theorem message_modByMonic_eq_iff (hw : 8 ≤ w) (g r : BitVec w) (bytes : List UInt8) :
    (message bytes * X ^ w) %ₘ generator g = poly r ↔ code g bytes = r := by
  rw [message_modByMonic hw]
  exact ⟨poly_injective, congrArg poly⟩

end Crc
