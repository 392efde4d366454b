import EluaWebServer.LuaTable.Table
import Mathlib.Data.Nat.Log
import Mathlib.Algebra.BigOperators.Group.Finset.Basic
import Mathlib.Data.Nat.Cast.Order.Basic

/-!
# The sizes of the two parts

`ceillog2` is the logarithm rounded up.  `computesizes` chooses the size of the
array part from the counts in the slices between powers of two.
-/

namespace LuaTable

/-! ## `ceillog2` -/

theorem log_2_le_iff : ∀ x, x < 256 → ∀ n, n ≤ 8 → (log_2.getD x 0 ≤ n ↔ x < 2 ^ n) := by
  decide +kernel

theorem log_2_le_eight (x : Nat) (hx : x < 256) : log_2.getD x 0 ≤ 8 :=
  (log_2_le_iff x hx 8 le_rfl).mpr hx

theorem luaOLog2_lt_iff (x n : Nat) : luaOLog2 x < n ↔ x < 2 ^ n := by
  induction x using luaOLog2.induct generalizing n with
  | case1 x hx =>
      rw [luaOLog2, if_pos hx]
      by_cases hn : n ≤ 8
      · rw [← log_2_le_iff x hx n hn]
        omega
      · have hpow : 2 ^ 8 ≤ 2 ^ n := Nat.pow_le_pow_right (by decide) (by omega)
        have height := log_2_le_eight x hx
        exact iff_of_true (by omega) (by omega)
  | case2 x hx ih =>
      rw [luaOLog2, if_neg hx]
      rw [Nat.shiftRight_eq_div_pow] at ih ⊢
      by_cases hn : n < 8
      · -- below eight neither holds, since the rest of the number is not 0
        have hzero := ih 0
        have hpow : 2 ^ n ≤ 2 ^ 8 := Nat.pow_le_pow_right (by decide) hn.le
        exact iff_of_false (by omega) (by omega)
      · have hrest := ih (n - 8)
        have hpow : 2 ^ n = 2 ^ (n - 8) * 2 ^ 8 := by
          rw [← pow_add, Nat.sub_add_cancel (by omega)]
        rw [hpow, ← Nat.div_lt_iff_lt_mul (by decide), ← hrest]
        omega

theorem ceillog2_le_iff {x n : Nat} (hx : 0 < x) : ceillog2 x ≤ n ↔ x ≤ 2 ^ n := by
  have h := luaOLog2_lt_iff (x - 1) n
  rw [ceillog2, Int.toNat_le]
  omega

theorem le_two_pow_ceillog2 {x : Nat} (hx : 0 < x) : x ≤ 2 ^ ceillog2 x :=
  (ceillog2_le_iff hx).mp le_rfl

theorem ceillog2_two_pow (n : Nat) : ceillog2 (2 ^ n) = n := by
  apply le_antisymm
  · exact (ceillog2_le_iff (Nat.two_pow_pos n)).mpr le_rfl
  · exact (Nat.pow_le_pow_iff_right (by decide)).mp (le_two_pow_ceillog2 (Nat.two_pow_pos n))

/-! ## `computesizes` -/

/-- The elements that are counted in the slices up to `2 ^ j`. -/
def upTo (nums : Nat → Nat) (j : Nat) : Nat := ∑ l ∈ Finset.range j, nums l

theorem upTo_succ (nums : Nat → Nat) (j : Nat) : upTo nums (j + 1) = upTo nums j + nums j :=
  Finset.sum_range_succ nums j

/-- A size of the array part with the number of elements that are counted for it. -/
def Counted (nums : Nat → Nat) (best : Nat × Nat) : Prop :=
  best = (0, 0) ∨ ∃ j, j ≤ MAXBITS ∧ best = (2 ^ j, upTo nums (j + 1))

theorem computesizesLoop_spec (nums : Nat → Nat) {narray : Nat} (hle : narray ≤ MAXASIZE)
    {fuel i : Nat} {best : Nat × Nat} (hfuel : fuel + i = MAXBITS + 2) (hi : i ≤ MAXBITS + 1)
    (hbest : Counted nums best) :
    ∃ best', computesizesLoop nums narray fuel i (upTo nums i) best = some best' ∧
      Counted nums best' := by
  induction fuel generalizing i best with
  | zero => omega
  | succ fuel ih =>
      obtain ⟨n, na⟩ := best
      rw [computesizesLoop]
      by_cases hcond : 2 ^ i / 2 < narray
      · rw [if_pos hcond]
        -- the slices end where the largest array part does
        have hlast : i ≤ MAXBITS := by
          by_contra h
          have hi27 : i = MAXBITS + 1 := by omega
          rw [hi27, pow_succ, Nat.mul_div_cancel _ (by decide)] at hcond
          exact absurd hcond (Nat.not_lt.mpr hle)
        dsimp only
        rw [← upTo_succ]
        have hnext : Counted nums
            (if 0 < nums i ∧ 2 ^ i / 2 < upTo nums (i + 1) then (2 ^ i, upTo nums (i + 1))
              else (n, na)) := by
          split
          next => exact Or.inr ⟨i, hlast, rfl⟩
          next => exact hbest
        split
        next => exact ⟨_, rfl, hnext⟩
        next => exact ih (by omega) (by omega) hnext
      · rw [if_neg hcond]
        exact ⟨_, rfl, hbest⟩

/-- **`computesizes` has a result**, which is 0 or a power of two with the elements up to it. -/
theorem computesizes_spec (nums : Nat → Nat) {narray : Nat} (hle : narray ≤ MAXASIZE) :
    ∃ best, computesizes nums narray = some best ∧ Counted nums best := by
  have h := computesizesLoop_spec nums (i := 0) hle (Nat.add_zero _)
    (Nat.zero_le _) (Or.inl rfl)
  rwa [upTo, Finset.sum_range_zero] at h

end LuaTable
