import Mathlib.Data.Nat.Bitwise
import Mathlib.Logic.Function.Basic

/-!
# Bits packed into bytes

One bit for each of many objects, eight to a byte, set and cleared with `or`
and `and` on the whole byte.  A byte that is written back brings its other
seven bits with it, as they were when it was read.
-/

namespace Packed

/-- `1 << ( id & 0x07 )`. -/
def msk (id : Nat) : UInt8 :=
  1 <<< UInt8.ofNat (id &&& 7)

/-- The bit of an object in its byte. -/
def bit (b : UInt8) (id : Nat) : Bool :=
  b &&& msk id != 0

/-- The byte with the bit of an object set or cleared. -/
def put (b : UInt8) (id : Nat) (set : Bool) : UInt8 :=
  if set then b ||| msk id else b &&& ~~~ msk id

/-- The bit of an object in the whole array. -/
def test (a : Nat → UInt8) (id : Nat) : Bool :=
  bit (a (id >>> 3)) id

/-- The array after a byte, read earlier, is written back with one bit
changed. -/
def store (a : Nat → UInt8) (read : UInt8) (id : Nat) (set : Bool) : Nat → UInt8 :=
  Function.update a (id >>> 3) (put read id set)

theorem toBitVec_msk (id : Nat) : (msk id).toBitVec = BitVec.twoPow 8 (id % 8) := by
  have hlt : id % 8 < 8 := Nat.mod_lt _ (by omega)
  have hand : id &&& 7 = id % 8 := Nat.and_two_pow_sub_one_eq_mod id 3
  rw [msk, hand]
  generalize id % 8 = k at hlt
  revert k
  decide

theorem bit_eq_getLsbD (b : UInt8) (id : Nat) : bit b id = b.toBitVec.getLsbD (id % 8) := by
  have hlt : id % 8 < 8 := Nat.mod_lt _ (by omega)
  have hpow : BitVec.twoPow 8 (id % 8) ≠ 0#8 := by
    intro hzero
    have hbit := congrArg (fun bits => bits.getLsbD (id % 8)) hzero
    simp [hlt] at hbit
  have hiff : b &&& msk id = 0 ↔ b.toBitVec.getLsbD (id % 8) = false := by
    rw [← UInt8.toBitVec_inj, UInt8.toBitVec_and, toBitVec_msk, BitVec.and_twoPow]
    cases b.toBitVec.getLsbD (id % 8) with
    | false => simp
    | true => simpa using hpow
  cases h : b.toBitVec.getLsbD (id % 8) with
  | false => simp [bit, hiff.mpr h]
  | true => simpa [bit, h] using hiff

/-- Setting or clearing one bit of a byte leaves the others. -/
theorem bit_put (b : UInt8) (i j : Nat) (set : Bool) :
    bit (put b j set) i = if i % 8 = j % 8 then set else bit b i := by
  have hi : i % 8 < 8 := Nat.mod_lt _ (by omega)
  simp only [bit_eq_getLsbD]
  cases set with
  | false =>
      simp only [put, Bool.false_eq_true, if_false, UInt8.toBitVec_and, UInt8.toBitVec_not,
        toBitVec_msk, BitVec.getLsbD_and, BitVec.getLsbD_not, BitVec.getLsbD_twoPow]
      by_cases h : i % 8 = j % 8
      · simp [h]
      · simp [h, hi, Ne.symm]
  | true =>
      simp only [put, if_true, UInt8.toBitVec_or, toBitVec_msk, BitVec.getLsbD_or,
        BitVec.getLsbD_twoPow]
      by_cases h : i % 8 = j % 8
      · have hj : j % 8 < 8 := h ▸ hi
        simp only [h, hj, decide_true, Bool.and_true, Bool.or_true, if_true]
      · simp only [h, if_false, Bool.or_eq_left_iff_imp]
        intro hbit
        simp only [Bool.and_eq_true, decide_eq_true_eq] at hbit
        exact absurd hbit.2.symm h

/-- A byte written back changes the bit it is about, and brings the bits that
it was read with for the others in the byte. -/
theorem test_store (a : Nat → UInt8) (read : UInt8) (i j : Nat) (set : Bool) :
    test (store a read j set) i =
      if i = j then set else if i >>> 3 = j >>> 3 then bit read i else test a i := by
  have hdiv : ∀ k : Nat, k >>> 3 = k / 8 := fun k => Nat.shiftRight_eq_div_pow k 3
  by_cases hbyte : i >>> 3 = j >>> 3
  · have hsame : i % 8 = j % 8 ↔ i = j := by
      rw [hdiv, hdiv] at hbyte
      omega
    rw [test, store, hbyte, Function.update_self, bit_put]
    simp only [hsame, if_true]
  · have hne : i ≠ j := fun h => hbyte (by rw [h])
    rw [test, store, Function.update_of_ne hbyte, if_neg hne, if_neg hbyte, test]

end Packed
