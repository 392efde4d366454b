import Mathlib.Data.List.Basic
import Mathlib.Algebra.Ring.Int.Defs
import Mathlib.Algebra.Ring.Nat

/-!
# Numbers in memory

Numbers as bytes in either byte order, integers in two's complement, and the
reversal of bytes in place.
-/

namespace Bytes

/-- The `n` low bytes of a number, least significant first. -/
def bytesLE : Nat → Nat → List UInt8
  | 0, _ => []
  | n + 1, x => UInt8.ofNat x :: bytesLE n (x / 256)

/-- The number with the given bytes, least significant first. -/
def ofBytesLE : List UInt8 → Nat
  | [] => 0
  | b :: bs => b.toNat + 256 * ofBytesLE bs

@[simp] theorem length_bytesLE (n x : Nat) : (bytesLE n x).length = n := by
  induction n generalizing x with
  | zero => rfl
  | succ n ih => rw [bytesLE, List.length_cons, ih]

theorem ofBytesLE_bytesLE {n x : Nat} (h : x < 2 ^ (8 * n)) : ofBytesLE (bytesLE n x) = x := by
  induction n generalizing x with
  | zero =>
      rw [Nat.mul_zero, Nat.pow_zero] at h
      rw [bytesLE, ofBytesLE]
      omega
  | succ n ih =>
      rw [Nat.mul_succ, Nat.pow_add] at h
      rw [bytesLE, ofBytesLE, ih (by omega), UInt8.toNat_ofNat']
      omega

/-- The bytes of a number that is put together from two. -/
theorem bytesLE_add {m x : Nat} (n : Nat) (h : x < 2 ^ (8 * m)) (y : Nat) :
    bytesLE (m + n) (x + 2 ^ (8 * m) * y) = bytesLE m x ++ bytesLE n y := by
  induction m generalizing x with
  | zero =>
      obtain rfl : x = 0 := by omega
      rw [Nat.zero_add, Nat.zero_add, Nat.mul_zero, Nat.pow_zero, Nat.one_mul]
      rfl
  | succ m ih =>
      rw [Nat.mul_succ, Nat.pow_add] at h
      have hsplit : x + 2 ^ (8 * (m + 1)) * y = x + 256 * (2 ^ (8 * m) * y) := by
        rw [Nat.mul_succ, Nat.pow_add, Nat.mul_comm (2 ^ (8 * m)), Nat.mul_assoc]
      have hfirst : UInt8.ofNat (x + 256 * (2 ^ (8 * m) * y)) = UInt8.ofNat x := by
        apply UInt8.toNat_inj.mp
        rw [UInt8.toNat_ofNat', UInt8.toNat_ofNat']
        omega
      have hrest : (x + 256 * (2 ^ (8 * m) * y)) / 256 = x / 256 + 2 ^ (8 * m) * y :=
        Nat.add_mul_div_left _ _ (by decide)
      rw [hsplit, Nat.succ_add, bytesLE, bytesLE, hfirst, hrest, ih (by omega), List.cons_append]

/-- Bytes of a number that are not there do not matter. -/
theorem bytesLE_mod (n x : Nat) : bytesLE n (x % 2 ^ (8 * n)) = bytesLE n x := by
  have hpos : 0 < 2 ^ (8 * n) := Nat.pow_pos (by decide)
  have hadd := bytesLE_add 0 (Nat.mod_lt x hpos) (x / 2 ^ (8 * n))
  rw [Nat.mod_add_div, Nat.add_zero, bytesLE, List.append_nil] at hadd
  exact hadd.symm

/-- The bytes of a number in memory. -/
def native (little : Bool) (n x : Nat) : List UInt8 :=
  if little then bytesLE n x else (bytesLE n x).reverse

/-- The number with the given bytes in memory. -/
def ofNative (little : Bool) (bs : List UInt8) : Nat :=
  ofBytesLE (if little then bs else bs.reverse)

@[simp] theorem length_native (little : Bool) (n x : Nat) : (native little n x).length = n := by
  cases little with
  | false => exact List.length_reverse.trans (length_bytesLE n x)
  | true => exact length_bytesLE n x

theorem ofNative_native {n x : Nat} (little : Bool) (h : x < 2 ^ (8 * n)) :
    ofNative little (native little n x) = x := by
  cases little with
  | false =>
      change ofBytesLE (bytesLE n x).reverse.reverse = x
      rw [List.reverse_reverse, ofBytesLE_bytesLE h]
  | true => exact ofBytesLE_bytesLE h

theorem native_mod (little : Bool) (n x : Nat) :
    native little n (x % 2 ^ (8 * n)) = native little n x := by
  rw [native, native, bytesLE_mod]

/-- And the number with the bytes of one that may be too large. -/
theorem ofNative_native_mod (little : Bool) (n x : Nat) :
    ofNative little (native little n x) = x % 2 ^ (8 * n) := by
  rw [← native_mod, ofNative_native little (Nat.mod_lt x (Nat.pow_pos (by decide)))]

theorem bytesLE_ofBytesLE (bs : List UInt8) : bytesLE bs.length (ofBytesLE bs) = bs := by
  induction bs with
  | nil => rfl
  | cons b bs ih =>
      have hlt := b.toNat_lt
      have hfirst : UInt8.ofNat (b.toNat + 256 * ofBytesLE bs) = b := by
        apply UInt8.toNat_inj.mp
        rw [UInt8.toNat_ofNat']
        omega
      have hrest : (b.toNat + 256 * ofBytesLE bs) / 256 = ofBytesLE bs := by omega
      rw [List.length_cons, ofBytesLE, bytesLE, hfirst, hrest, ih]

/-- The bytes of the number that some bytes are. -/
theorem native_ofNative (little : Bool) (bs : List UInt8) :
    native little bs.length (ofNative little bs) = bs := by
  cases little with
  | false =>
      have h := bytesLE_ofBytesLE bs.reverse
      rw [List.length_reverse] at h
      exact (congrArg List.reverse h).trans (List.reverse_reverse bs)
  | true => exact bytesLE_ofBytesLE bs

/-- The bytes of the other byte order. -/
theorem reverse_native {little little' : Bool} (h : little ≠ little') (n x : Nat) :
    (native little n x).reverse = native little' n x := by
  cases little with
  | false =>
      obtain rfl : little' = true := by simpa using h.symm
      exact List.reverse_reverse _
  | true =>
      obtain rfl : little' = false := by simpa using h.symm
      rfl

/-! ## Reversal in place -/

/-- Exchange two bytes. -/
def exchange (bs : List UInt8) (i j : Nat) : List UInt8 :=
  (bs.set i (bs.getD j 0)).set j (bs.getD i 0)

/-- The first `k` bytes are exchanged with the last `k`. -/
def exchanges (bs : List UInt8) (size : Nat) : Nat → List UInt8
  | 0 => bs
  | k + 1 => exchange (exchanges bs size k) k (size - 1 - k)

theorem length_exchanges (bs : List UInt8) (size k : Nat) :
    (exchanges bs size k).length = bs.length := by
  induction k with
  | zero => rfl
  | succ k ih => rw [exchanges, exchange, List.length_set, List.length_set, ih]

theorem getElem?_exchanges {bs : List UInt8} {k i : Nat} (hk : k ≤ bs.length / 2)
    (hi : i < bs.length) :
    (exchanges bs bs.length k)[i]? =
      if i < k ∨ bs.length - k ≤ i then bs[bs.length - 1 - i]? else bs[i]? := by
  induction k generalizing i with
  | zero => rw [exchanges, if_neg (by omega)]
  | succ k ih =>
      have hin (j : Nat) (hj : j < bs.length) : some (bs[j]?.getD 0) = bs[j]? := by
        rw [List.getElem?_eq_getElem hj, Option.getD_some]
      -- the two bytes have not been moved yet
      have hlow := ih (i := k) (by omega) (by omega)
      have hhigh := ih (i := bs.length - 1 - k) (by omega) (by omega)
      rw [if_neg (by omega)] at hlow hhigh
      rw [exchanges, exchange, List.getElem?_set, List.getElem?_set, List.length_set,
        length_exchanges, List.getD_eq_getElem?_getD, List.getD_eq_getElem?_getD, hlow, hhigh]
      by_cases hlast : bs.length - 1 - k = i
      · rw [if_pos hlast, if_pos (by omega), if_pos (by omega), hin k (by omega)]
        congr 1
        omega
      · rw [if_neg hlast]
        by_cases hfirst : k = i
        · rw [if_pos hfirst, if_pos (by omega), if_pos (by omega), hin _ (by omega)]
          congr 1
          omega
        · rw [if_neg hfirst, ih (by omega) hi]
          refine if_congr ?_ rfl rfl
          omega

/-- Half of the exchanges reverse the bytes. -/
theorem exchanges_half (bs : List UInt8) : exchanges bs bs.length (bs.length / 2) = bs.reverse := by
  refine List.ext_getElem? fun i => ?_
  by_cases hi : i < bs.length
  · rw [getElem?_exchanges (Nat.le_refl _) hi, List.getElem?_reverse hi]
    split
    · rfl
    · congr 1
      omega
  · rw [List.getElem?_eq_none (by rw [length_exchanges]; omega),
      List.getElem?_eq_none (by rw [List.length_reverse]; omega)]

/-! ## Two's complement -/

/-- The integer in `n` bytes. -/
def signed (n x : Nat) : Int := if x < 2 ^ (8 * n - 1) then x else (x : Int) - 2 ^ (8 * n)

/-- The `n` bytes of an integer. -/
def wrap (n : Nat) (y : Int) : Nat := (y % 2 ^ (8 * n)).toNat

/-- The integers of `n` bytes. -/
def InRange (n : Nat) (y : Int) : Prop := -2 ^ (8 * n - 1) ≤ y ∧ y < 2 ^ (8 * n - 1)

instance (n : Nat) (y : Int) : Decidable (InRange n y) := inferInstanceAs (Decidable (_ ∧ _))

theorem InRange.mono {m n : Nat} {y : Int} (h : InRange m y) (hle : m ≤ n) : InRange n y := by
  have hpow : 2 ^ (8 * m - 1) ≤ 2 ^ (8 * n - 1) := Nat.pow_le_pow_right (by decide) (by omega)
  have hcast (k : Nat) : ((2 ^ (8 * k - 1) : Nat) : Int) = 2 ^ (8 * k - 1) := by push_cast; rfl
  have hm := hcast m
  have hn := hcast n
  obtain ⟨hlow, hhigh⟩ := h
  constructor
  · omega
  · omega

theorem wrap_lt (n : Nat) (y : Int) : wrap n y < 2 ^ (8 * n) := by
  have hpos : (0 : Int) < 2 ^ (8 * n) := Int.pow_pos (by decide)
  have hlt := Int.emod_lt_of_pos y hpos
  have hnonneg := Int.emod_nonneg y (Int.ne_of_gt hpos)
  have hcast : ((2 ^ (8 * n) : Nat) : Int) = 2 ^ (8 * n) := by push_cast; rfl
  rw [wrap]
  omega

theorem wrap_natCast {n x : Nat} (h : x < 2 ^ (8 * n)) : wrap n x = x := by
  have hcast : ((2 ^ (8 * n) : Nat) : Int) = 2 ^ (8 * n) := by push_cast; rfl
  rw [wrap, Int.emod_eq_of_lt (Int.natCast_nonneg x) (by omega), Int.toNat_natCast]

theorem signed_wrap {n : Nat} {y : Int} (hn : 0 < n) (h : InRange n y) :
    signed n (wrap n y) = y := by
  obtain ⟨hlow, hhigh⟩ := h
  have hdouble : (2 : Int) ^ (8 * n) = 2 * 2 ^ (8 * n - 1) := by
    rw [← Int.pow_succ', Nat.sub_add_cancel (by omega)]
  have hcast : ((2 ^ (8 * n - 1) : Nat) : Int) = 2 ^ (8 * n - 1) := by push_cast; rfl
  have hpos : (0 : Int) < 2 ^ (8 * n - 1) := Int.pow_pos (by decide)
  rw [signed, wrap, hdouble]
  by_cases hneg : y < 0
  · have hmod : y % (2 * 2 ^ (8 * n - 1)) = y + 2 * 2 ^ (8 * n - 1) := by
      rw [← Int.add_emod_right]
      exact Int.emod_eq_of_lt (by omega) (by omega)
    rw [hmod, if_neg (by omega)]
    omega
  · rw [Int.emod_eq_of_lt (by omega) (by omega), if_pos (by omega)]
    omega

theorem signed_inRange {n x : Nat} (hn : 0 < n) (h : x < 2 ^ (8 * n)) : InRange n (signed n x) := by
  have hdouble : 2 ^ (8 * n) = 2 * 2 ^ (8 * n - 1) := by
    rw [← Nat.pow_succ', Nat.succ_eq_add_one, Nat.sub_add_cancel (by omega)]
  have hcast : ((2 ^ (8 * n - 1) : Nat) : Int) = 2 ^ (8 * n - 1) := by push_cast; rfl
  have hcast' : ((2 ^ (8 * n) : Nat) : Int) = 2 ^ (8 * n) := by push_cast; rfl
  rw [InRange, signed]
  split <;> omega

theorem wrap_signed {n x : Nat} (h : x < 2 ^ (8 * n)) : wrap n (signed n x) = x := by
  have hcast : ((2 ^ (8 * n) : Nat) : Int) = 2 ^ (8 * n) := by push_cast; rfl
  have hmod : signed n x % 2 ^ (8 * n) = x := by
    rw [signed]
    split
    · exact Int.emod_eq_of_lt (by omega) (by omega)
    · rw [Int.sub_emod_right]
      exact Int.emod_eq_of_lt (by omega) (by omega)
  rw [wrap, hmod]
  rfl

end Bytes
