import Mathlib.Data.Nat.Bitwise

/-!
# Little-endian machine words

Splitting 16- and 32-bit words into bytes with masks and shifts, and putting
them together again with shifts and `or`, the way portable C code does it.
The two directions are inverse to each other for every word and every choice
of bytes.
-/

namespace Word

/-- An `or` with a value shifted past all bits of the other operand is a sum. -/
theorem or_shiftLeft_eq_add {a i : Nat} (b : Nat) (h : a < 2 ^ i) :
    a ||| b <<< i = a + b * 2 ^ i := by
  rw [Nat.or_comm, ← Nat.shiftLeft_add_eq_or_of_lt h, Nat.shiftLeft_eq, Nat.add_comm]

/-- The low byte of a 16-bit word shifted right by `8 * k`, for `k = 0, 1`. -/
def bytes16 (x : UInt16) : List UInt8 :=
  [(x &&& 0xFF).toUInt8, ((x >>> 8) &&& 0xFF).toUInt8]

/-- The four bytes of a 32-bit word, least significant first. -/
def bytes32 (x : UInt32) : List UInt8 :=
  [(x &&& 0xFF).toUInt8, ((x >>> 8) &&& 0xFF).toUInt8,
    ((x >>> 16) &&& 0xFF).toUInt8, ((x >>> 24) &&& 0xFF).toUInt8]

/-- The 16-bit word with the given bytes, least significant first. -/
def ofBytes16 (b0 b1 : UInt8) : UInt16 :=
  b0.toUInt16 ||| b1.toUInt16 <<< 8

/-- The 32-bit word with the given bytes, least significant first. -/
def ofBytes32 (b0 b1 b2 b3 : UInt8) : UInt32 :=
  b0.toUInt32 ||| b1.toUInt32 <<< 8 ||| b2.toUInt32 <<< 16 ||| b3.toUInt32 <<< 24

@[simp] theorem bytes16_length (x : UInt16) : (bytes16 x).length = 2 := rfl

@[simp] theorem bytes32_length (x : UInt32) : (bytes32 x).length = 4 := rfl

theorem toNat_ofBytes16 (b0 b1 : UInt8) :
    (ofBytes16 b0 b1).toNat = b0.toNat + b1.toNat * 2 ^ 8 := by
  have h0 := b0.toNat_lt
  have h1 := b1.toNat_lt
  simp only [ofBytes16, UInt16.toNat_or, UInt16.toNat_shiftLeft, UInt8.toNat_toUInt16,
    UInt16.reduceToNat, Nat.reduceMod]
  rw [Nat.mod_eq_of_lt (by rw [Nat.shiftLeft_eq]; omega), or_shiftLeft_eq_add _ (by omega)]

theorem toNat_ofBytes32 (b0 b1 b2 b3 : UInt8) :
    (ofBytes32 b0 b1 b2 b3).toNat =
      b0.toNat + b1.toNat * 2 ^ 8 + b2.toNat * 2 ^ 16 + b3.toNat * 2 ^ 24 := by
  have h0 := b0.toNat_lt
  have h1 := b1.toNat_lt
  have h2 := b2.toNat_lt
  have h3 := b3.toNat_lt
  simp only [ofBytes32, UInt32.toNat_or, UInt32.toNat_shiftLeft, UInt8.toNat_toUInt32,
    UInt32.reduceToNat, Nat.reduceMod]
  rw [Nat.mod_eq_of_lt (a := b1.toNat <<< 8) (by rw [Nat.shiftLeft_eq]; omega),
    Nat.mod_eq_of_lt (a := b2.toNat <<< 16) (by rw [Nat.shiftLeft_eq]; omega),
    Nat.mod_eq_of_lt (a := b3.toNat <<< 24) (by rw [Nat.shiftLeft_eq]; omega),
    or_shiftLeft_eq_add (i := 8) _ (by omega), or_shiftLeft_eq_add (i := 16) _ (by omega),
    or_shiftLeft_eq_add (i := 24) _ (by omega)]

/-- Splitting a 16-bit word and putting it together again. -/
theorem ofBytes16_bytes16 (x : UInt16) :
    ofBytes16 (x &&& 0xFF).toUInt8 ((x >>> 8) &&& 0xFF).toUInt8 = x := by
  have := x.toNat_lt
  apply UInt16.toNat_inj.mp
  rw [toNat_ofBytes16]
  simp only [UInt16.toNat_toUInt8, UInt16.toNat_and, UInt16.toNat_shiftRight,
    UInt16.reduceToNat, Nat.reduceMod, Nat.shiftRight_eq_div_pow,
    Nat.and_two_pow_sub_one_eq_mod _ 8]
  omega

/-- Splitting a 32-bit word and putting it together again. -/
theorem ofBytes32_bytes32 (x : UInt32) :
    ofBytes32 (x &&& 0xFF).toUInt8 ((x >>> 8) &&& 0xFF).toUInt8
      ((x >>> 16) &&& 0xFF).toUInt8 ((x >>> 24) &&& 0xFF).toUInt8 = x := by
  have := x.toNat_lt
  apply UInt32.toNat_inj.mp
  rw [toNat_ofBytes32]
  simp only [UInt32.toNat_toUInt8, UInt32.toNat_and, UInt32.toNat_shiftRight,
    UInt32.reduceToNat, Nat.reduceMod, Nat.shiftRight_eq_div_pow,
    Nat.and_two_pow_sub_one_eq_mod _ 8]
  omega

/-- Any two bytes are the bytes of the 16-bit word they make. -/
theorem bytes16_ofBytes16 (b0 b1 : UInt8) : bytes16 (ofBytes16 b0 b1) = [b0, b1] := by
  have h0 := b0.toNat_lt
  have h1 := b1.toNat_lt
  simp only [bytes16, List.cons.injEq, and_true]
  refine ⟨?_, ?_⟩ <;> apply UInt8.toNat_inj.mp <;>
    simp only [UInt16.toNat_toUInt8, UInt16.toNat_and, UInt16.toNat_shiftRight,
      UInt16.reduceToNat, Nat.reduceMod, Nat.shiftRight_eq_div_pow,
      Nat.and_two_pow_sub_one_eq_mod _ 8, toNat_ofBytes16] <;> omega

/-- Any four bytes are the bytes of the 32-bit word they make. -/
theorem bytes32_ofBytes32 (b0 b1 b2 b3 : UInt8) :
    bytes32 (ofBytes32 b0 b1 b2 b3) = [b0, b1, b2, b3] := by
  have h0 := b0.toNat_lt
  have h1 := b1.toNat_lt
  have h2 := b2.toNat_lt
  have h3 := b3.toNat_lt
  simp only [bytes32, List.cons.injEq, and_true]
  refine ⟨?_, ?_, ?_, ?_⟩ <;> apply UInt8.toNat_inj.mp <;>
    simp only [UInt32.toNat_toUInt8, UInt32.toNat_and, UInt32.toNat_shiftRight,
      UInt32.reduceToNat, Nat.reduceMod, Nat.shiftRight_eq_div_pow,
      Nat.and_two_pow_sub_one_eq_mod _ 8, toNat_ofBytes32] <;> omega

end Word
