import EluaWebServer.Lib.Chain
import EluaWebServer.Salloc.Heap
import Mathlib.Tactic.IntervalCases

/-!
# Block headers

What the functions on the two words of a header do, as changes of one node of
a doubly linked chain.  A function on the header at `a` changes only its eight
bytes, so headers at other multiples of eight stay as they are.
-/

namespace Salloc

open Memory

/-! ## The words of a header -/

/-- The link that a word with a changed link field holds. -/
theorem link_of_setLink (w n : UInt32) :
    ((w &&& (0x80000000 : UInt32)) ||| (n >>> (3 : UInt32))) &&& (0x7FFFFFFF : UInt32) =
      n >>> (3 : UInt32) := by
  apply UInt32.toBitVec_inj.mp
  ext i hi
  interval_cases i <;> simp

/-- Changing the link field leaves the highest bit. -/
theorem taken_of_setLink (w n : UInt32) :
    ((w &&& (0x80000000 : UInt32)) ||| (n >>> (3 : UInt32))) &&& (0x80000000 : UInt32) =
      w &&& (0x80000000 : UInt32) := by
  apply UInt32.toBitVec_inj.mp
  ext i hi
  interval_cases i <;> simp

theorem link_of_shift (n : UInt32) :
    (n >>> (3 : UInt32)) &&& (0x7FFFFFFF : UInt32) = n >>> (3 : UInt32) := by
  have h := link_of_setLink 0 n
  rwa [UInt32.zero_and, UInt32.zero_or] at h

theorem taken_of_shift (n : UInt32) : (n >>> (3 : UInt32)) &&& (0x80000000 : UInt32) = 0 := by
  have h := taken_of_setLink 0 n
  rwa [UInt32.zero_and, UInt32.zero_or] at h

theorem link_of_mark (w : UInt32) :
    (w ||| (0x80000000 : UInt32)) &&& (0x7FFFFFFF : UInt32) = w &&& (0x7FFFFFFF : UInt32) := by
  apply UInt32.toBitVec_inj.mp
  ext i hi
  interval_cases i <;> simp

theorem taken_of_mark (w : UInt32) :
    (w ||| (0x80000000 : UInt32)) &&& (0x80000000 : UInt32) = 0x80000000 := by
  apply UInt32.toBitVec_inj.mp
  ext i hi
  interval_cases i <;> simp

theorem link_of_unmark (w : UInt32) :
    (w &&& (0x7FFFFFFF : UInt32)) &&& (0x7FFFFFFF : UInt32) = w &&& (0x7FFFFFFF : UInt32) := by
  rw [UInt32.and_assoc, UInt32.and_self]

theorem taken_of_unmark (w : UInt32) :
    (w &&& (0x7FFFFFFF : UInt32)) &&& (0x80000000 : UInt32) = 0 := by
  rw [UInt32.and_assoc]
  exact UInt32.and_zero

/-- An address of a block survives the division by the size multiple. -/
theorem address_of_shift {n : Nat} (haligned : n % 8 = 0) (hlt : n < 2 ^ 32) :
    ((UInt32.ofNat n >>> (3 : UInt32)) <<< (3 : UInt32)).toNat = n := by
  simp only [UInt32.toNat_shiftLeft, UInt32.toNat_shiftRight, UInt32.toNat_ofNat',
    Nat.shiftLeft_eq, Nat.shiftRight_eq_div_pow, UInt32.reduceToNat, Nat.reduceMod, Nat.reducePow]
  omega

/-! ## Headers as nodes -/

/-- The header at an address; the tag says that the block is taken. -/
def header (m : Mem) (a : Nat) : Chain.Node Nat Bool :=
  ⟨sGetNextBlock m a, sGetPrevBlock m a, !sIsBlockFree m a⟩

theorem header_congr {m m' : Mem} {a : Nat} (h : ∀ i, a ≤ i → i < a + 8 → m' i = m i) :
    header m' a = header m a := by
  have hfirst : load32 m' a = load32 m a := load32_congr fun i hlo hhi => h i hlo (by omega)
  have hsecond : load32 m' (a + 4) = load32 m (a + 4) :=
    load32_congr fun i hlo hhi => h i (by omega) (by omega)
  simp only [header, sGetNextBlock, sGetPrevBlock, sIsBlockFree, hfirst, hsecond]

/-- Only the header at `a` may differ. -/
def SameBut (a : Nat) (m m' : Mem) : Prop := ∀ i, i < a ∨ a + 8 ≤ i → m' i = m i

/-- Headers at other multiples of eight are the same. -/
theorem SameBut.header {a b : Nat} {m m' : Mem} (h : SameBut a m m') (ha : a % 8 = 0)
    (hb : b % 8 = 0) (hne : b ≠ a) : header m' b = header m b :=
  header_congr fun i hlo hhi => h i (by omega)

theorem sameBut_store_first (m : Mem) (a : Nat) (w : UInt32) : SameBut a m (store32 m a w) :=
  fun _ h => store32_of_outside (by omega)

theorem sameBut_store_second (m : Mem) (a : Nat) (w : UInt32) :
    SameBut a m (store32 m (a + 4) w) :=
  fun _ h => store32_of_outside (by omega)

theorem sameBut_sSetNextBlock (m : Mem) (a n : Nat) : SameBut a m (sSetNextBlock m a n) :=
  sameBut_store_first m a _

theorem sameBut_sSetPrevBlock (m : Mem) (a n : Nat) : SameBut a m (sSetPrevBlock m a n) :=
  sameBut_store_second m a _

theorem sameBut_sMarkBlockTaken (m : Mem) (a : Nat) : SameBut a m (sMarkBlockTaken m a) :=
  sameBut_store_first m a _

theorem sameBut_sMarkBlockFree (m : Mem) (a : Nat) : SameBut a m (sMarkBlockFree m a) :=
  sameBut_store_first m a _

theorem sameBut_sCreateNewBlock (m : Mem) (a next prev : Nat) :
    SameBut a m (sCreateNewBlock m a next prev) :=
  fun i h => (sameBut_store_second _ a _ i h).trans (sameBut_store_first m a _ i h)

/-- A header whose first word is `w`, with the second word as it was. -/
theorem header_store_first (m : Mem) (a : Nat) (w : UInt32) :
    header (store32 m a w) a =
      ⟨((w &&& 0x7FFFFFFF) <<< 3).toNat, (header m a).prev, !decide (w &&& 0x80000000 = 0)⟩ := by
  have hsecond : load32 (store32 m a w) (a + 4) = load32 m (a + 4) :=
    load32_store32_of_disjoint (by omega)
  simp only [header, sGetNextBlock, sGetPrevBlock, sIsBlockFree, load32_store32, hsecond]

/-- A header whose second word is `w`, with the first word as it was. -/
theorem header_store_second (m : Mem) (a : Nat) (w : UInt32) :
    header (store32 m (a + 4) w) a =
      ⟨(header m a).next, ((w &&& 0x7FFFFFFF) <<< 3).toNat, (header m a).tag⟩ := by
  have hfirst : load32 (store32 m (a + 4) w) a = load32 m a :=
    load32_store32_of_disjoint (by omega)
  simp only [header, sGetNextBlock, sGetPrevBlock, sIsBlockFree, load32_store32, hfirst]

section

variable (m : Mem) (a : Nat)

theorem header_sSetNextBlock {n : Nat} (haligned : n % 8 = 0) (hlt : n < 2 ^ 32) :
    header (sSetNextBlock m a n) a = { header m a with next := n } := by
  rw [sSetNextBlock, header_store_first, link_of_setLink, taken_of_setLink,
    address_of_shift haligned hlt]
  rfl

theorem header_sSetPrevBlock {n : Nat} (haligned : n % 8 = 0) (hlt : n < 2 ^ 32) :
    header (sSetPrevBlock m a n) a = { header m a with prev := n } := by
  rw [sSetPrevBlock, header_store_second, link_of_setLink, address_of_shift haligned hlt]

theorem header_sMarkBlockTaken :
    header (sMarkBlockTaken m a) a = { header m a with tag := true } := by
  rw [sMarkBlockTaken, header_store_first, link_of_mark, taken_of_mark]
  rfl

theorem header_sMarkBlockFree :
    header (sMarkBlockFree m a) a = { header m a with tag := false } := by
  rw [sMarkBlockFree, header_store_first, link_of_unmark, taken_of_unmark]
  rfl

theorem header_sCreateNewBlock {next prev : Nat} (hnext : next % 8 = 0) (hnextlt : next < 2 ^ 32)
    (hprev : prev % 8 = 0) (hprevlt : prev < 2 ^ 32) :
    header (sCreateNewBlock m a next prev) a = ⟨next, prev, false⟩ := by
  rw [sCreateNewBlock, header_store_second, header_store_first, link_of_shift, link_of_shift,
    taken_of_shift, address_of_shift hnext hnextlt, address_of_shift hprev hprevlt]
  rfl

end

/-! ## Sizes -/

/-- The size of a block, header included, rounded up. -/
def actSize (size : Nat) : Nat := (size + 15) / 8 * 8

/-- The size does not wrap when the header is added and it is rounded up. -/
def NoWrap (size : Nat) : Prop := actSize size < 2 ^ 32

instance (size : Nat) : Decidable (NoWrap size) := inferInstanceAs (Decidable (_ < _))

theorem sActSize_eq {size : Nat} (h : NoWrap size) :
    sActSize ((size + DYN_HEADER_SIZE) % 2 ^ 32) = actSize size := by
  unfold NoWrap actSize at h
  unfold sActSize actSize DYN_HEADER_SIZE DYN_SIZE_MULT
  have hsum : (size + 8) % 2 ^ 32 = size + 8 := Nat.mod_eq_of_lt (by omega)
  rw [hsum]
  by_cases hround : (size + 8) % 8 ≠ 0
  · rw [if_pos hround, Nat.mod_eq_of_lt (by omega)]
    omega
  · rw [if_neg hround]
    omega

theorem sGetBlockSize_eq {m : Mem} {a : Nat} (hlt : a < sGetNextBlock m a) :
    sGetBlockSize m a = sGetNextBlock m a - a := by
  have hnext : sGetNextBlock m a < 2 ^ 32 := UInt32.toNat_lt _
  simp only [sGetBlockSize, if_pos (show sGetNextBlock m a ≠ 0 by omega)]
  omega

theorem sGetNextBlock_aligned (m : Mem) (a : Nat) : sGetNextBlock m a % 8 = 0 := by
  simp only [sGetNextBlock, UInt32.toNat_shiftLeft, Nat.shiftLeft_eq, UInt32.reduceToNat,
    Nat.reduceMod, Nat.reducePow]
  omega

/-- No block is as large as the first `minsize` of the search. -/
theorem sGetBlockSize_lt (m : Mem) {a : Nat} (ha : a % 8 = 0) : sGetBlockSize m a < 2 ^ 32 - 1 := by
  have hnext := sGetNextBlock_aligned m a
  simp only [sGetBlockSize]
  split <;> omega

end Salloc
