import Mathlib.Data.Nat.Log
import Mathlib.Tactic.Ring

/-!
# Integers in binary floating-point formats

Bit patterns of the binary interchange formats, given by their numbers of
exponent and fraction bits.  A finite pattern stands for
`sig * 2 ^ scale / 2 ^ ( bias + fracBits )`, so that no negative exponents are
needed to say that it is an integer.  Integers are converted to the nearest
number, ties to even, and numbers to integers by truncation.
-/

namespace Ieee

structure Format where
  expBits : Nat
  fracBits : Nat

/-- The formats of 32 and 64 bits. -/
def single : Format := ⟨8, 23⟩
def double : Format := ⟨11, 52⟩

section

variable (f : Format)

def Format.bias : Nat := 2 ^ (f.expBits - 1) - 1

variable (b : Nat)

/-- The fields of a pattern. -/
def frac : Nat := b % 2 ^ f.fracBits
def expo : Nat := b / 2 ^ f.fracBits % 2 ^ f.expBits
def negative : Bool := b / 2 ^ (f.fracBits + f.expBits) % 2 = 1

/-- Neither an infinity nor not a number. -/
def finite : Bool := expo f b ≠ 2 ^ f.expBits - 1

/-- The significand with its hidden bit. -/
def sig : Nat := if expo f b = 0 then frac f b else 2 ^ f.fracBits + frac f b

def scale : Nat := max (expo f b) 1

/-- The number of the pattern is an integer. -/
def IsInt (x : Int) : Prop :=
  finite f b = true ∧ sig f b * 2 ^ scale f b = x.natAbs * 2 ^ (f.bias + f.fracBits) ∧
    if negative f b then x ≤ 0 else 0 ≤ x

instance (x : Int) : Decidable (IsInt f b x) := by
  unfold IsInt
  infer_instance

/-- Conversion to an integer, which has no result for infinities. -/
def toInt : Option Int :=
  if finite f b then
    let m : Nat := sig f b * 2 ^ scale f b / 2 ^ (f.bias + f.fracBits)
    some (if negative f b then -m else m)
  else none

/-- `m / 2 ^ d`, to the nearest, ties to even. -/
def roundShift (m d : Nat) : Nat :=
  if 2 ^ d < 2 * (m % 2 ^ d) ∨ 2 ^ d = 2 * (m % 2 ^ d) ∧ m / 2 ^ d % 2 = 1 then m / 2 ^ d + 1
  else m / 2 ^ d

/-- The pattern of a positive integer, without the sign. -/
def ofNat (m : Nat) : Nat :=
  let k := Nat.log2 m
  let s := if k ≤ f.fracBits then m * 2 ^ (f.fracBits - k) else roundShift m (k - f.fracBits)
  if k + f.bias < 2 ^ f.expBits - 1 then (k + f.bias) * 2 ^ f.fracBits + (s - 2 ^ f.fracBits)
  else (2 ^ f.expBits - 1) * 2 ^ f.fracBits

/-- Conversion from an integer. -/
def ofInt (x : Int) : Nat :=
  if x = 0 then 0
  else (if x < 0 then 2 ^ (f.fracBits + f.expBits) else 0) + ofNat f x.natAbs

end

variable {f : Format} {b : Nat} {x : Int}

/-- Truncation of an integer. -/
theorem toInt_of_isInt (h : IsInt f b x) : toInt f b = some x := by
  obtain ⟨hfinite, hvalue, hsign⟩ := h
  rw [toInt, if_pos hfinite, hvalue, Nat.mul_div_cancel _ (Nat.pow_pos (by decide))]
  refine congrArg some ?_
  split at hsign
  · rename_i hneg
    rw [if_pos hneg]
    omega
  · rename_i hneg
    rw [if_neg hneg]
    omega

theorem sig_lt (f : Format) (b : Nat) : sig f b < 2 ^ (f.fracBits + 1) := by
  have hfrac : frac f b < 2 ^ f.fracBits := Nat.mod_lt _ (Nat.pow_pos (by decide))
  rw [sig, Nat.pow_succ]
  split
  · omega
  · omega

/-- A shift by which nothing is lost needs no rounding. -/
theorem roundShift_of_dvd {m d : Nat} (h : 2 ^ d ∣ m) : roundShift m d = m / 2 ^ d := by
  have hpos : 0 < 2 ^ d := Nat.pow_pos (by decide)
  rw [roundShift, Nat.mod_eq_zero_of_dvd h, if_neg (by omega)]

/-- The fields of a pattern that is put together. -/
theorem fields_eq {sign e s : Nat} (he : e < 2 ^ f.expBits) (hs : s < 2 ^ f.fracBits) :
    frac f (sign * 2 ^ (f.fracBits + f.expBits) + (e * 2 ^ f.fracBits + s)) = s ∧
    expo f (sign * 2 ^ (f.fracBits + f.expBits) + (e * 2 ^ f.fracBits + s)) = e ∧
    (sign < 2 → (negative f (sign * 2 ^ (f.fracBits + f.expBits) + (e * 2 ^ f.fracBits + s)) = true
      ↔ sign = 1)) := by
  have hfrac : 0 < 2 ^ f.fracBits := Nat.pow_pos (by decide)
  have hsplit : sign * 2 ^ (f.fracBits + f.expBits) + (e * 2 ^ f.fracBits + s) =
      s + 2 ^ f.fracBits * (e + 2 ^ f.expBits * sign) := by
    rw [Nat.pow_add]
    ring
  have hdiv : (s + 2 ^ f.fracBits * (e + 2 ^ f.expBits * sign)) / 2 ^ f.fracBits =
      e + 2 ^ f.expBits * sign := by
    rw [Nat.add_mul_div_left _ _ hfrac, Nat.div_eq_of_lt hs, Nat.zero_add]
  rw [hsplit]
  refine ⟨?_, ?_, fun hsign => ?_⟩
  · rw [frac, Nat.add_mul_mod_self_left, Nat.mod_eq_of_lt hs]
  · rw [expo, hdiv, Nat.add_mul_mod_self_left, Nat.mod_eq_of_lt he]
  · rw [negative, decide_eq_true_iff, Nat.pow_add, ← Nat.div_div_eq_div_mul, hdiv,
      Nat.add_mul_div_left _ _ (Nat.pow_pos (by decide)), Nat.div_eq_of_lt he, Nat.zero_add,
      Nat.mod_eq_of_lt hsign]

/-- What is known of a positive integer that some pattern has. -/
theorem log2_of_isInt (hexp : 2 ≤ f.expBits) (h : IsInt f b x) (hx : x ≠ 0) :
    Nat.log2 x.natAbs + f.bias < 2 ^ f.expBits - 1 ∧
    (f.fracBits < Nat.log2 x.natAbs →
      2 ^ (Nat.log2 x.natAbs - f.fracBits) ∣ x.natAbs) := by
  obtain ⟨hfinite, hvalue, -⟩ := h
  have hm : x.natAbs ≠ 0 := Int.natAbs_ne_zero.mpr hx
  have hlow : 2 ^ Nat.log2 x.natAbs ≤ x.natAbs := Nat.log2_self_le hm
  have hexpo : expo f b < 2 ^ f.expBits := Nat.mod_lt _ (Nat.pow_pos (by decide))
  have hfinite' : expo f b ≠ 2 ^ f.expBits - 1 := by simpa [finite] using hfinite
  -- the significand has no more than its bits, so the exponent makes up for the rest
  have hscale : Nat.log2 x.natAbs + f.bias ≤ scale f b := by
    have hlt : 2 ^ (Nat.log2 x.natAbs + (f.bias + f.fracBits)) <
        2 ^ (f.fracBits + 1 + scale f b) := by
      calc 2 ^ (Nat.log2 x.natAbs + (f.bias + f.fracBits))
          = 2 ^ Nat.log2 x.natAbs * 2 ^ (f.bias + f.fracBits) := Nat.pow_add _ _ _
        _ ≤ x.natAbs * 2 ^ (f.bias + f.fracBits) := Nat.mul_le_mul_right _ hlow
        _ = sig f b * 2 ^ scale f b := hvalue.symm
        _ < 2 ^ (f.fracBits + 1) * 2 ^ scale f b :=
            Nat.mul_lt_mul_of_pos_right (sig_lt f b) (Nat.pow_pos (by decide))
        _ = 2 ^ (f.fracBits + 1 + scale f b) := (Nat.pow_add _ _ _).symm
    have := (Nat.pow_lt_pow_iff_right (by decide)).mp hlt
    omega
  refine ⟨?_, fun hlarge => ?_⟩
  · have htwo : 2 ^ 2 ≤ 2 ^ f.expBits := Nat.pow_le_pow_right (by decide) hexp
    unfold scale at hscale
    omega
  · generalize Nat.log2 x.natAbs = k at *
    have hdvd : 2 ^ (scale f b - (f.bias + f.fracBits)) * 2 ^ (f.bias + f.fracBits) =
        2 ^ scale f b := by
      rw [← Nat.pow_add, Nat.sub_add_cancel (by omega)]
    rw [← hdvd, ← Nat.mul_assoc] at hvalue
    rw [← Nat.eq_of_mul_eq_mul_right (Nat.pow_pos (by decide)) hvalue]
    exact Dvd.dvd.mul_left (Nat.pow_dvd_pow 2 (by omega)) _

/-- The significand of a positive integer that some pattern has. -/
theorem significand_eq {m k : Nat} (hlow : 2 ^ k ≤ m) (hhigh : m < 2 ^ (k + 1))
    (hdvd : f.fracBits < k → 2 ^ (k - f.fracBits) ∣ m) {s : Nat}
    (hs : s = if k ≤ f.fracBits then m * 2 ^ (f.fracBits - k)
      else roundShift m (k - f.fracBits)) :
    s * 2 ^ k = m * 2 ^ f.fracBits ∧ 2 ^ f.fracBits ≤ s ∧ s < 2 ^ (f.fracBits + 1) := by
  have hvalue : s * 2 ^ k = m * 2 ^ f.fracBits := by
    by_cases hle : k ≤ f.fracBits
    · rw [hs, if_pos hle, Nat.mul_assoc, ← Nat.pow_add, Nat.sub_add_cancel hle]
    · have hd := hdvd (by omega)
      have hsplit : 2 ^ k = 2 ^ (k - f.fracBits) * 2 ^ f.fracBits := by
        rw [← Nat.pow_add, Nat.sub_add_cancel (by omega)]
      rw [hs, if_neg hle, roundShift_of_dvd hd, hsplit, ← Nat.mul_assoc, Nat.div_mul_cancel hd]
  refine ⟨hvalue, ?_, ?_⟩
  · refine Nat.le_of_mul_le_mul_right ?_ (Nat.pow_pos (n := k) (by decide : 0 < 2))
    rw [hvalue, Nat.mul_comm]
    exact Nat.mul_le_mul_right _ hlow
  · refine Nat.lt_of_mul_lt_mul_right (a := 2 ^ k) ?_
    rw [hvalue, ← Nat.pow_add, Nat.add_right_comm, Nat.add_comm f.fracBits k, Nat.add_right_comm,
      Nat.pow_add _ (k + 1)]
    exact Nat.mul_lt_mul_of_pos_right hhigh (Nat.pow_pos (by decide))

/-- Conversion is exact on the integers that neither the exponent nor the fraction is too
short for. -/
theorem isInt_ofInt_of_fits (hexp : 2 ≤ f.expBits)
    (hfits : Nat.log2 x.natAbs + f.bias < 2 ^ f.expBits - 1)
    (hdvd : f.fracBits < Nat.log2 x.natAbs → 2 ^ (Nat.log2 x.natAbs - f.fracBits) ∣ x.natAbs) :
    IsInt f (ofInt f x) x ∧ ofInt f x < 2 ^ (1 + f.expBits + f.fracBits) := by
  have htwo : 2 ^ 2 ≤ 2 ^ f.expBits := Nat.pow_le_pow_right (by decide) hexp
  by_cases hx : x = 0
  · subst hx
    have hzero : expo f 0 = 0 := by rw [expo, Nat.zero_div, Nat.zero_mod]
    rw [ofInt, if_pos rfl]
    refine ⟨⟨?_, ?_, ?_⟩, Nat.pow_pos (by decide)⟩
    · rw [finite, hzero, decide_eq_true_iff]
      omega
    · rw [sig, if_pos hzero, frac, Nat.zero_mod, Int.natAbs_zero, Nat.zero_mul, Nat.zero_mul]
    · split
      · exact Int.le_refl 0
      · exact Int.le_refl 0
  have hm : x.natAbs ≠ 0 := Int.natAbs_ne_zero.mpr hx
  have hlow : 2 ^ Nat.log2 x.natAbs ≤ x.natAbs := Nat.log2_self_le hm
  have hhigh : x.natAbs < 2 ^ (Nat.log2 x.natAbs + 1) := Nat.lt_log2_self
  obtain ⟨sign, hsign, hof⟩ : ∃ sign, (sign = if x < 0 then 1 else 0) ∧
      ofInt f x = sign * 2 ^ (f.fracBits + f.expBits) + ofNat f x.natAbs := by
    refine ⟨_, rfl, ?_⟩
    rw [ofInt, if_neg hx]
    by_cases hneg : x < 0
    · rw [if_pos hneg, if_pos hneg, Nat.one_mul]
    · rw [if_neg hneg, if_neg hneg, Nat.zero_mul]
  rw [hof, ofNat]
  simp only [if_pos hfits]
  generalize hk : Nat.log2 x.natAbs = k at *
  generalize hs : (if k ≤ f.fracBits then x.natAbs * 2 ^ (f.fracBits - k)
    else roundShift x.natAbs (k - f.fracBits)) = s
  obtain ⟨hvalue, hslow, hshigh⟩ := significand_eq hlow hhigh hdvd hs.symm
  rw [Nat.pow_succ] at hshigh
  have hs' : s - 2 ^ f.fracBits < 2 ^ f.fracBits := by omega
  obtain ⟨hfrac, hexpo, hneg⟩ := @fields_eq f sign (k + f.bias) _ (by omega) hs'
  have hbias : 0 < f.bias := by
    have hone : 2 ^ 1 ≤ 2 ^ (f.expBits - 1) := Nat.pow_le_pow_right (by decide) (by omega)
    unfold Format.bias
    omega
  have hsigned : sign < 2 ∧ (sign = 1 ↔ x < 0) := by
    rw [hsign]
    split
    · rename_i hlt
      exact ⟨by decide, iff_of_true rfl hlt⟩
    · rename_i hge
      exact ⟨by decide, iff_of_false (by decide) hge⟩
  refine ⟨⟨?_, ?_, ?_⟩, ?_⟩
  · rw [finite, hexpo, decide_eq_true_iff]
    omega
  · rw [sig, scale, hexpo, hfrac, if_neg (by omega), Nat.add_sub_cancel' hslow,
      Nat.max_eq_left (by omega), Nat.pow_add, ← Nat.mul_assoc, hvalue, Nat.mul_assoc,
      ← Nat.pow_add, Nat.add_comm f.fracBits]
  · have hiff := (hneg hsigned.1).trans hsigned.2
    split
    · rename_i hnegative
      exact Int.le_of_lt (hiff.mp hnegative)
    · rename_i hpositive
      exact Int.not_lt.mp fun hlt => hpositive (hiff.mpr hlt)
  · have hmagnitude : (k + f.bias) * 2 ^ f.fracBits + (s - 2 ^ f.fracBits) <
        2 ^ (f.fracBits + f.expBits) := by
      have hnext : (k + f.bias + 1) * 2 ^ f.fracBits ≤ 2 ^ f.expBits * 2 ^ f.fracBits :=
        Nat.mul_le_mul_right _ (by omega)
      rw [Nat.succ_mul] at hnext
      rw [Nat.pow_add, Nat.mul_comm (2 ^ f.fracBits)]
      omega
    have hone : sign * 2 ^ (f.fracBits + f.expBits) ≤ 1 * 2 ^ (f.fracBits + f.expBits) :=
      Nat.mul_le_mul_right _ (by omega)
    rw [Nat.add_assoc 1, Nat.add_comm 1, Nat.add_comm f.expBits, Nat.pow_succ]
    omega

/-- **Conversion is exact** on the integers that have a pattern. -/
theorem isInt_ofInt (hexp : 2 ≤ f.expBits) (h : IsInt f b x) :
    IsInt f (ofInt f x) x ∧ ofInt f x < 2 ^ (1 + f.expBits + f.fracBits) := by
  by_cases hx : x = 0
  · subst hx
    have hbias : f.bias < 2 ^ f.expBits - 1 := by
      have hlt : 2 ^ (f.expBits - 1) < 2 ^ f.expBits :=
        Nat.pow_lt_pow_right (by decide) (by omega)
      unfold Format.bias
      have hpos : 0 < 2 ^ (f.expBits - 1) := Nat.pow_pos (by decide)
      omega
    have hlog : Nat.log2 (Int.natAbs 0) = 0 := rfl
    apply isInt_ofInt_of_fits hexp
    · omega
    · omega
  · obtain ⟨hfits, hdvd⟩ := log2_of_isInt hexp h hx
    exact isInt_ofInt_of_fits hexp hfits hdvd

/-- The integers of 32 bits are exact in the format of 64 bits. -/
theorem isInt_ofInt_double (h : x.natAbs ≤ 2 ^ 31) : IsInt double (ofInt double x) x := by
  have hlog : Nat.log2 x.natAbs < 32 := by
    by_cases hx : x.natAbs = 0
    · rw [hx]
      decide
    · rw [Nat.log2_lt hx]
      omega
  have hbias : double.bias = 1023 := rfl
  have hexp : double.expBits = 11 := rfl
  have hfrac : double.fracBits = 52 := rfl
  refine (isInt_ofInt_of_fits (f := double) ?_ ?_ ?_).1
  · omega
  · rw [hexp]
    omega
  · omega

end Ieee
