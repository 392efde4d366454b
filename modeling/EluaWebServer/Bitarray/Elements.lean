import EluaWebServer.Lib.Bitfield
import EluaWebServer.Lib.Bytes

/-!
# Elements of bit arrays

Elements of 1, 2 or 4 bits share bytes, the first one in the high bits.  Wider ones are words of
the machine.  Bytes that are not in the array are not read or written: there is no result then.
-/

namespace Bitarray

open Bytes

/-- The value of an unsigned 32-bit expression. -/
def u32 (n : Nat) : Nat := n % 2 ^ 32

/-- An integer that is converted to an unsigned type. -/
def unsigned (bits : Nat) (n : Int) : Nat := (n % 2 ^ bits).toNat

/-- `ROUND_SIZE`. -/
def roundSize (s : Nat) : Nat := (s >>> 3) + if s &&& 7 ≠ 0 then 1 else 0

/-- The structure that describes an array. -/
structure Array where
  capacity : Nat
  elsize : Nat
  values : List UInt8

def indexShift (elsize : Nat) : Nat := [0, 3, 2, 0, 1].getD elsize 0
def indexMask (elsize : Nat) : Nat := [0, 0x01, 0x03, 0, 0x0F].getD elsize 0

/-- How a call ends otherwise. -/
inductive Stop where
  | error (msg : String)
  /-- A division by zero, or bytes that are not those of the array. -/
  | fault
  /-- The iterations that were allowed are over. -/
  | running
  deriving DecidableEq

/-- A word of the machine in the bytes. -/
def readWord (little : Bool) (values : List UInt8) (i n : Nat) : Option Nat :=
  if i + n ≤ values.length then some (ofNative little ((values.drop i).take n)) else none

def writeWord (little : Bool) (values : List UInt8) (i n val : Nat) : Option (List UInt8) :=
  if i + n ≤ values.length then
    some (values.take i ++ (native little n val) ++ values.drop (i + n))
  else none

/-- Get the value at the given index. -/
def bitarrayGetval (little : Bool) (pa : Array) (idx : Nat) : Option Nat :=
  let idx := u32 (idx + 2 ^ 32 - 1)
  if pa.elsize < 8 then
    let shift := idx >>> indexShift pa.elsize
    let mask := 1 <<< indexShift pa.elsize
    let rest := idx &&& (mask - 1)
    pa.values[shift]?.map fun val =>
      (val.toNat >>> ((mask - 1 - rest) * pa.elsize)) &&& indexMask pa.elsize
  else
    match pa.elsize with
    | 8 => readWord little pa.values idx 1
    | 16 => readWord little pa.values (idx * 2) 2
    | 32 => readWord little pa.values (idx * 4) 4
    | _ => some 0

/-- The bytes after a value has been put at an index, which starts from 0 here. -/
def putval (little : Bool) (pa : Array) (idx newval : Nat) : Option (List UInt8) :=
  let val := 0
  if pa.elsize < 8 then
    let shift := idx >>> indexShift pa.elsize
    let mask := 1 <<< indexShift pa.elsize
    let rest := idx &&& (mask - 1)
    pa.values[shift]?.map fun val =>
      let val := val.toNat &&&
        (2 ^ 32 - 1 - indexMask pa.elsize <<< ((mask - 1 - rest) * pa.elsize))
      let val := val ||| u32 (newval <<< ((mask - 1 - rest) * pa.elsize))
      pa.values.set shift (UInt8.ofNat val)
  else
    match pa.elsize with
    | 8 => writeWord little pa.values idx 1 val
    | 16 => writeWord little pa.values (idx * 2) 2 val
    | 32 => writeWord little pa.values (idx * 4) 4 val
    | _ => some pa.values

/-- `value = array[ idx ]`. -/
def bitarrayGet (little : Bool) (pa : Array) (idx : Int) : Except Stop Nat :=
  let idx := unsigned 32 idx
  if idx = 0 ∨ pa.capacity < idx then .error (.error "invalid index.")
  else (bitarrayGetval little pa idx).elim (.error .fault) .ok

/-- `array[ key ] = value`. -/
def bitarraySet (little : Bool) (pa : Array) (idx newval : Int) : Except Stop Array :=
  let idx := unsigned 32 idx
  if idx = 0 ∨ pa.capacity < idx then .error (.error "invalid index.")
  else
    (putval little pa (idx - 1) (unsigned 32 newval)).elim (.error .fault) fun values =>
      .ok { pa with values := values }

/-- The element sizes that arrays have. -/
def elsizes : List Nat := [1, 2, 4, 8, 16, 32]

/-- The array has one of these, and there are bytes for all elements. -/
structure Array.WellFormed (a : Array) : Prop where
  elsize_mem : a.elsize ∈ elsizes
  capacity_lt : a.capacity < 2 ^ 32
  fits : a.capacity * a.elsize ≤ 8 * a.values.length

/-! ## Words -/

section

variable {little : Bool} {values values' : List UInt8} {i j n val : Nat}

theorem length_writeWord (hwrite : writeWord little values i n val = some values') :
    values'.length = values.length := by
  rw [writeWord] at hwrite
  split at hwrite
  · obtain rfl := Option.some.inj hwrite
    simp only [List.length_append, List.length_take, List.length_drop, length_native]
    omega
  · cases hwrite

/-- What is written is read. -/
theorem readWord_writeWord (hwrite : writeWord little values i n val = some values') :
    readWord little values' i n = some (val % 2 ^ (8 * n)) := by
  have hlength := length_writeWord hwrite
  rw [writeWord] at hwrite
  split at hwrite
  · rename_i hfits
    obtain rfl := Option.some.inj hwrite
    have htake : (values.take i).length = i := List.length_take_of_le (by omega)
    have hdrop : (values.take i ++ (native little n val) ++ values.drop (i + n)).drop i =
        native little n val ++ values.drop (i + n) := by
      rw [List.append_assoc]
      exact List.drop_left' htake
    rw [readWord, hlength, if_pos hfits, hdrop, List.take_left' (length_native little n val),
      ofNative_native_mod]
  · cases hwrite

/-- Other words are as before. -/
theorem readWord_of_apart (hwrite : writeWord little values i n val = some values')
    (hapart : j + n ≤ i ∨ i + n ≤ j) : readWord little values' j n = readWord little values j n := by
  have hlength := length_writeWord hwrite
  rw [readWord, readWord, hlength]
  congr 2
  rw [writeWord] at hwrite
  split at hwrite
  · rename_i hfits
    obtain rfl := Option.some.inj hwrite
    refine congrArg (ofNative little) (List.ext_getElem? fun k => ?_)
    rw [List.getElem?_take, List.getElem?_take, List.getElem?_drop, List.getElem?_drop]
    by_cases hk : k < n
    · rw [if_pos hk, if_pos hk, List.append_assoc]
      rcases hapart with hbefore | hbehind
      · rw [List.getElem?_append_left (by rw [List.length_take]; omega),
          List.getElem?_take_of_lt (by omega)]
      · rw [List.getElem?_append_right (by rw [List.length_take]; omega),
          List.getElem?_append_right (by rw [List.length_take, length_native]; omega),
          List.getElem?_drop]
        congr 1
        rw [List.length_take, length_native]
        omega
    · rw [if_neg hk, if_neg hk]
  · cases hwrite

end

/-! ## Places -/

/-- How many elements are in a byte, when they share bytes. -/
def perByte (elsize : Nat) : Nat := 2 ^ indexShift elsize

/-- The lowest bit of the element with an index from 0 in its byte. -/
def place (elsize i : Nat) : Nat := (perByte elsize - 1 - i % perByte elsize) * elsize

section

variable {little : Bool} {e i j n v : Nat} {a : Array} {values : List UInt8}

theorem perByte_mul (he : e ∈ elsizes) (hlt : e < 8) : perByte e * e = 8 := by
  revert e
  decide

theorem indexMask_eq (he : e ∈ elsizes) (hlt : e < 8) : indexMask e = 2 ^ e - 1 := by
  revert e
  decide

theorem pos_of_mem (he : e ∈ elsizes) : 0 < e := by
  revert e
  decide

theorem le_of_mem (he : e ∈ elsizes) : e ≤ 32 := by
  revert e
  decide

/-- Wider elements are whole bytes. -/
theorem div_mul_of_mem (he : e ∈ elsizes) (hge : 8 ≤ e) : e / 8 * 8 = e := by
  revert e
  decide

theorem perByte_pos (e : Nat) : 0 < perByte e := Nat.two_pow_pos _

/-- The byte of an index. -/
theorem mul_div_perByte (he : e ∈ elsizes) (hlt : e < 8) (i : Nat) : i * e / 8 = i / perByte e := by
  rw [← perByte_mul he hlt, Nat.mul_div_mul_right _ _ (pos_of_mem he)]

/-- Every place is in the byte. -/
theorem place_add_le (he : e ∈ elsizes) (hlt : e < 8) (i : Nat) : place e i + e ≤ 8 := by
  have hmod := Nat.mod_lt i (perByte_pos e)
  calc place e i + e = (perByte e - 1 - i % perByte e + 1) * e := by rw [place, Nat.succ_mul]
    _ ≤ perByte e * e := Nat.mul_le_mul_right e (by omega)
    _ = 8 := perByte_mul he hlt

/-- An earlier element of the same byte is above. -/
theorem place_sub (hj : j < i) (hbyte : j / perByte e = i / perByte e) :
    place e j = place e i + (i - j) * e := by
  have hi := Nat.div_add_mod i (perByte e)
  have hj := Nat.div_add_mod j (perByte e)
  have hmod := Nat.mod_lt i (perByte_pos e)
  rw [hbyte] at hj
  rw [place, place, ← Nat.add_mul]
  congr 1
  omega

/-- The element in front of an index that counts from 1. -/
theorem u32_pred (hi : i < 2 ^ 32) : u32 (i + 1 + 2 ^ 32 - 1) = i := by
  rw [u32]
  omega

/-- Reading an element that shares its byte. -/
theorem getval_small (he : a.elsize ∈ elsizes) (hlt : a.elsize < 8) (hi : i < 2 ^ 32) :
    bitarrayGetval little a (i + 1) = a.values[i / perByte a.elsize]?.map fun b =>
      Bitfield.get a.elsize (place a.elsize i) b.toNat := by
  rw [bitarrayGetval]
  dsimp only
  rw [if_pos hlt, u32_pred hi, Nat.one_shiftLeft, Nat.and_two_pow_sub_one_eq_mod,
    Nat.shiftRight_eq_div_pow, indexMask_eq he hlt]
  rfl

/-- Writing one. -/
theorem putval_small (he : a.elsize ∈ elsizes) (hlt : a.elsize < 8) :
    putval little a i v = a.values[i / perByte a.elsize]?.map fun b =>
      a.values.set (i / perByte a.elsize) (UInt8.ofNat
        (Bitfield.put 32 a.elsize (place a.elsize i) b.toNat v)) := by
  rw [putval]
  dsimp only
  rw [if_pos hlt, Nat.one_shiftLeft, Nat.and_two_pow_sub_one_eq_mod,
    Nat.shiftRight_eq_div_pow, indexMask_eq he hlt]
  rfl

theorem wide_cases (he : e ∈ elsizes) (hge : 8 ≤ e) : e = 8 ∨ e = 16 ∨ e = 32 := by
  simp only [elsizes, List.mem_cons, List.not_mem_nil, or_false] at he
  omega

/-- A word that has as many bits as the elements. -/
theorem getval_wide (he : a.elsize ∈ elsizes) (hge : 8 ≤ a.elsize) (hi : i < 2 ^ 32) :
    bitarrayGetval little a (i + 1) =
      readWord little a.values (i * (a.elsize / 8)) (a.elsize / 8) := by
  obtain ⟨capacity, elsize, values⟩ := a
  rw [bitarrayGetval]
  dsimp only at he hge ⊢
  rw [u32_pred hi, if_neg (Nat.not_lt.mpr hge)]
  obtain rfl | rfl | rfl := wide_cases he hge
  · rw [show 8 / 8 = 1 from rfl, Nat.mul_one]
    rfl
  · rfl
  · rfl

theorem putval_wide (he : a.elsize ∈ elsizes) (hge : 8 ≤ a.elsize) :
    putval little a i v = writeWord little a.values (i * (a.elsize / 8)) (a.elsize / 8) 0 := by
  obtain ⟨capacity, elsize, values⟩ := a
  rw [putval]
  dsimp only at he hge ⊢
  rw [if_neg (Nat.not_lt.mpr hge)]
  obtain rfl | rfl | rfl := wide_cases he hge
  · rw [show 8 / 8 = 1 from rfl, Nat.mul_one]
    rfl
  · rfl
  · rfl

/-- There are bytes for every element. -/
theorem byte_lt (ha : a.WellFormed) (hlt : a.elsize < 8) (hi : i < a.capacity) :
    i / perByte a.elsize < a.values.length := by
  have hfits := ha.fits
  have hpos := pos_of_mem ha.elsize_mem
  have hmul : (i + 1) * a.elsize ≤ a.capacity * a.elsize := Nat.mul_le_mul_right _ hi
  rw [← mul_div_perByte ha.elsize_mem hlt]
  rw [Nat.succ_mul] at hmul
  omega

theorem word_le (ha : a.WellFormed) (hge : 8 ≤ a.elsize) (hi : i < a.capacity) :
    i * (a.elsize / 8) + a.elsize / 8 ≤ a.values.length := by
  have hfits := ha.fits
  have hmul : (i + 1) * a.elsize ≤ a.capacity * a.elsize := Nat.mul_le_mul_right _ hi
  have hbits : (i + 1) * (a.elsize / 8) * 8 ≤ a.values.length * 8 := by
    rw [Nat.mul_assoc, div_mul_of_mem ha.elsize_mem hge]
    omega
  rw [← Nat.succ_mul]
  exact Nat.le_of_mul_le_mul_right hbits (by decide)

theorem getval_isSome (little : Bool) (ha : a.WellFormed) (hi : i < a.capacity) :
    ∃ x, bitarrayGetval little a (i + 1) = some x := by
  have hcapacity := ha.capacity_lt
  rcases Nat.lt_or_ge a.elsize 8 with hlt | hge
  · rw [getval_small ha.elsize_mem hlt (by omega), List.getElem?_eq_getElem (byte_lt ha hlt hi)]
    exact ⟨_, rfl⟩
  · rw [getval_wide ha.elsize_mem hge (by omega), readWord, if_pos (word_le ha hge hi)]
    exact ⟨_, rfl⟩

theorem putval_isSome (little : Bool) (ha : a.WellFormed) (hi : i < a.capacity) (v : Nat) :
    ∃ values, putval little a i v = some values := by
  rcases Nat.lt_or_ge a.elsize 8 with hlt | hge
  · rw [putval_small ha.elsize_mem hlt, List.getElem?_eq_getElem (byte_lt ha hlt hi)]
    exact ⟨_, rfl⟩
  · rw [putval_wide ha.elsize_mem hge, writeWord, if_pos (word_le ha hge hi)]
    exact ⟨_, rfl⟩

end

end Bitarray
