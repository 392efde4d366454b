import Mathlib.Data.Nat.Bitwise

/-!
# Bit fields

Some bits of a word from a position on.  A value that is put into a field may
be too large for it, and then falls on the bits above the field as well.
-/

namespace Bitfield

/-- The `e` bits of a word from bit `k` on. -/
def get (e k b : Nat) : Nat := (b >>> k) &&& (2 ^ e - 1)

/-- A word of `n` bits in which these bits are cleared, and a value is put there. -/
def put (n e k b v : Nat) : Nat := (b &&& (2 ^ n - 1 - (2 ^ e - 1) <<< k)) ||| (v <<< k) % 2 ^ n

variable {n m e k k' b v : Nat}

theorem testBit_get (e k b t : Nat) :
    (get e k b).testBit t = (decide (t < e) && b.testBit (k + t)) := by
  rw [get, Nat.testBit_and, Nat.testBit_shiftRight, Nat.testBit_two_pow_sub_one, Bool.and_comm]

theorem get_lt (e k b : Nat) : get e k b < 2 ^ e := by
  rw [get, Nat.and_two_pow_sub_one_eq_mod]
  exact Nat.mod_lt _ (Nat.two_pow_pos e)

/-- The bits of a word after a field has been written. -/
theorem testBit_put (hfield : k + e ≤ n) (b v t : Nat) :
    (put n e k b v).testBit t = (decide (t < n) &&
      (b.testBit t && !(decide (k ≤ t) && decide (t < k + e)) ||
        decide (k ≤ t) && v.testBit (t - k))) := by
  have hmask : (2 ^ e - 1) <<< k < 2 ^ n := by
    calc (2 ^ e - 1) <<< k < 2 ^ (k + e) := by
          rw [Nat.shiftLeft_eq, Nat.pow_add, Nat.mul_comm]
          exact Nat.mul_lt_mul_of_pos_left (Nat.sub_lt (Nat.two_pow_pos e) Nat.one_pos)
            (Nat.two_pow_pos k)
      _ ≤ 2 ^ n := Nat.pow_le_pow_right (by decide) hfield
  have hnot : 2 ^ n - 1 - (2 ^ e - 1) <<< k = 2 ^ n - ((2 ^ e - 1) <<< k + 1) := by omega
  rw [put, hnot, Nat.testBit_or, Nat.testBit_and, Nat.testBit_two_pow_sub_succ hmask,
    Nat.testBit_mod_two_pow, Nat.testBit_shiftLeft, Nat.testBit_shiftLeft,
    Nat.testBit_two_pow_sub_one]
  have hpart : decide (t - k < e) = decide (t < k + e) ∨ decide (k ≤ t) = false := by
    by_cases hle : k ≤ t
    · exact .inl (decide_eq_decide.mpr (by omega))
    · exact .inr (decide_eq_false hle)
  rcases hpart with hpart | hpart
  · rw [hpart]
    cases decide (t < n) <;> cases b.testBit t <;> simp
  · rw [hpart]
    cases decide (t < n) <;> cases b.testBit t <;> simp

/-- The field gets the low bits of the value. -/
theorem get_put (hfield : k + e ≤ m) (hmn : m ≤ n) (b v : Nat) :
    get e k (put n e k b v % 2 ^ m) = v % 2 ^ e := by
  apply Nat.eq_of_testBit_eq
  intro t
  rw [testBit_get, Nat.testBit_mod_two_pow, testBit_put (hfield.trans hmn), Nat.testBit_mod_two_pow,
    Nat.add_sub_cancel_left]
  by_cases ht : t < e
  · have hm : k + t < m := by omega
    have hn : k + t < n := by omega
    simp [ht, hm, hn]
  · simp [ht]

/-- Fields below are not changed. -/
theorem get_put_below (hfield : k + e ≤ m) (hmn : m ≤ n) (hbelow : k' + e ≤ k) (b v : Nat) :
    get e k' (put n e k b v % 2 ^ m) = get e k' b := by
  apply Nat.eq_of_testBit_eq
  intro t
  rw [testBit_get, testBit_get, Nat.testBit_mod_two_pow, testBit_put (hfield.trans hmn)]
  by_cases ht : t < e
  · have hm : k' + t < m := by omega
    have hn : k' + t < n := by omega
    have hk : ¬ k ≤ k' + t := by omega
    simp [ht, hm, hn, hk]
  · simp [ht]

/-- Fields above get the bits of the value that fall on them as well. -/
theorem get_put_above (hfield : k' + e ≤ m) (hmn : m ≤ n) (habove : k + e ≤ k') (b v : Nat) :
    get e k' (put n e k b v % 2 ^ m) = get e k' b ||| get e (k' - k) v := by
  apply Nat.eq_of_testBit_eq
  intro t
  have hput : k + e ≤ n := by omega
  rw [Nat.testBit_or, testBit_get, testBit_get, testBit_get, Nat.testBit_mod_two_pow,
    testBit_put hput]
  by_cases ht : t < e
  · have hm : k' + t < m := by omega
    have hn : k' + t < n := by omega
    have hle : k ≤ k' + t := by omega
    have hlt : ¬ k' + t < k + e := by omega
    have hsub : k' + t - k = k' - k + t := by omega
    simp [ht, hm, hn, hle, hlt, hsub]
  · simp [ht]

/-- Words of the same fields are the same. -/
theorem eq_of_get {b b' count : Nat} (hb : b < 2 ^ (count * e)) (hb' : b' < 2 ^ (count * e))
    (hget : ∀ i < count, get e (i * e) b = get e (i * e) b') : b = b' := by
  apply Nat.eq_of_testBit_eq
  intro t
  by_cases ht : t < count * e
  · have he : 0 < e := Nat.pos_of_ne_zero fun hzero => by simp [hzero] at ht
    have hfield := hget (t / e) (Nat.div_lt_of_lt_mul (Nat.mul_comm e count ▸ ht))
    have hbit := congrArg (Nat.testBit · (t % e)) hfield
    rw [testBit_get, testBit_get, Nat.mul_comm, Nat.div_add_mod] at hbit
    simpa [Nat.mod_lt t he] using hbit
  · have hle : 2 ^ (count * e) ≤ 2 ^ t := Nat.pow_le_pow_right (by decide) (by omega)
    rw [Nat.testBit_lt_two_pow (Nat.lt_of_lt_of_le hb hle),
      Nat.testBit_lt_two_pow (Nat.lt_of_lt_of_le hb' hle)]

end Bitfield
