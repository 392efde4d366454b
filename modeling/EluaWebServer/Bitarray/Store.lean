import EluaWebServer.Bitarray.Elements

/-!
# Storing an element

A value that is too large for an element of less than 8 bits also falls on the elements in front
of it in the same byte.  In place of a wider one 0 is stored.
-/

namespace Bitarray

/-- The element has the value, and the others are as before. -/
def Stored (little : Bool) (a : Array) (i : Nat) (v : Int) : Prop :=
  ∃ a', bitarraySet little a i v = .ok a' ∧
    bitarrayGetval little a' i = some (unsigned a.elsize v) ∧
    ∀ j, 1 ≤ j → j ≤ a.capacity → j ≠ i → bitarrayGetval little a' j = bitarrayGetval little a j

/-- What a store needs: the elements in front, in the same byte, already have the bits of the value
that fall on them.  Where elements do not share bytes the value is 0. -/
def Fitting (little : Bool) (a : Array) (i : Nat) (v : Int) : Prop :=
  if a.elsize < 8 then
    ∀ j x, 1 ≤ j → j < i → (j - 1) * a.elsize / 8 = (i - 1) * a.elsize / 8 →
      bitarrayGetval little a j = some x →
      x ||| Bitfield.get a.elsize ((i - j) * a.elsize) (unsigned 32 v) = x
  else unsigned a.elsize v = 0

variable {little : Bool} {a a' : Array} {e i j w : Nat} {v : Int}

theorem unsigned_mod (v : Int) (he : e ≤ 32) : unsigned 32 v % 2 ^ e = unsigned e v := by
  have hdvd : (2 ^ e : Int) ∣ 2 ^ 32 := pow_dvd_pow 2 he
  have hpos : (0 : Int) < 2 ^ e := Int.pow_pos (by decide)
  have hnonneg : 0 ≤ v % 2 ^ 32 := Int.emod_nonneg v (by decide)
  have hnonneg' : 0 ≤ v % 2 ^ e := Int.emod_nonneg v (Int.ne_of_gt hpos)
  apply Int.ofNat_inj.mp
  rw [unsigned, unsigned, Int.natCast_emod, Int.toNat_of_nonneg hnonneg, Int.toNat_of_nonneg hnonneg',
    Int.natCast_pow]
  exact Int.emod_emod_of_dvd v hdvd

theorem unsigned_natCast (h : i < 2 ^ 32) : unsigned 32 i = i := by
  rw [unsigned]
  omega

/-- A store at a valid index is one of the bytes. -/
theorem bitarraySet_eq (ha : a.WellFormed) (hi : i < a.capacity) (v : Int) :
    bitarraySet little a (i + 1 : Nat) v = (putval little a i (unsigned 32 v)).elim (.error .fault)
      fun values => .ok { a with values := values } := by
  have hcapacity := ha.capacity_lt
  rw [bitarraySet, unsigned_natCast (by omega), if_neg (by omega), Nat.add_sub_cancel]

/-- **Elements that share bytes**, after a store. -/
theorem getval_putval_small (he : a.elsize ∈ elsizes) (hlt : a.elsize < 8) {values : List UInt8}
    (hput : putval little a i w = some values) (hi : i < 2 ^ 32) (hj : j < 2 ^ 32) :
    bitarrayGetval little { a with values := values } (j + 1) =
      if j = i then some (w % 2 ^ a.elsize)
      else if j < i ∧ j / perByte a.elsize = i / perByte a.elsize then
        (bitarrayGetval little a (j + 1)).map (· ||| Bitfield.get a.elsize ((i - j) * a.elsize) w)
      else bitarrayGetval little a (j + 1) := by
  rw [putval_small he hlt] at hput
  obtain ⟨b, hb, hvalues⟩ := Option.map_eq_some_iff.mp hput
  have hlength := (List.getElem?_eq_some_iff.mp hb).1
  have hread := @getval_small little j { a with values := values } he hlt hj
  dsimp only at hread
  rw [hread, getval_small he hlt hj, ← hvalues, List.getElem?_set]
  by_cases hbyte : i / perByte a.elsize = j / perByte a.elsize
  · rw [if_pos hbyte, if_pos hlength, ← hbyte, hb, Option.map_some, Option.map_some, Option.map_some,
      UInt8.toNat_ofNat']
    rcases Nat.lt_trichotomy j i with hlt' | rfl | hgt
    · rw [if_neg (Nat.ne_of_lt hlt'), if_pos ⟨hlt', rfl⟩]
      have hplace := place_sub hlt' hbyte.symm
      have habove : place a.elsize i + a.elsize ≤ place a.elsize j := by
        rw [hplace]
        exact Nat.add_le_add_left (Nat.le_mul_of_pos_left _ (by omega)) _
      rw [Bitfield.get_put_above (place_add_le he hlt j) (by decide) habove, hplace,
        Nat.add_sub_cancel_left]
    · rw [if_pos rfl, Bitfield.get_put (place_add_le he hlt j) (by decide)]
    · rw [if_neg (Nat.ne_of_gt hgt), if_neg fun h => absurd h.1 (Nat.lt_asymm hgt)]
      have hbelow : place a.elsize j + a.elsize ≤ place a.elsize i := by
        rw [place_sub hgt hbyte]
        exact Nat.add_le_add_left (Nat.le_mul_of_pos_left _ (by omega)) _
      rw [Bitfield.get_put_below (place_add_le he hlt i) (by decide) hbelow]
  · rw [if_neg hbyte, if_neg fun h : j = i => hbyte (h ▸ rfl), if_neg fun h => hbyte h.2.symm]

/-- **Wider elements**, after a store. -/
theorem getval_putval_wide (he : a.elsize ∈ elsizes) (hge : 8 ≤ a.elsize) {values : List UInt8}
    (hput : putval little a i w = some values) (hj : j < 2 ^ 32) :
    bitarrayGetval little { a with values := values } (j + 1) =
      if j = i then some 0 else bitarrayGetval little a (j + 1) := by
  rw [putval_wide he hge] at hput
  have hread := @getval_wide little j { a with values := values } he hge hj
  dsimp only at hread
  rw [hread, getval_wide he hge hj]
  split
  · rename_i heq
    rw [heq, readWord_writeWord hput, Nat.zero_mod]
  · rename_i hne
    refine readWord_of_apart hput ?_
    rcases Nat.lt_or_gt_of_ne hne with hlt | hgt
    · refine .inl ?_
      rw [← Nat.succ_mul]
      exact Nat.mul_le_mul_right _ hlt
    · refine .inr ?_
      rw [← Nat.succ_mul]
      exact Nat.mul_le_mul_right _ hgt

/-- **Storing.**  A store at a valid index gives the element the value modulo its size and leaves
the others as they are, exactly when the value fits. -/
theorem stored_iff (little : Bool) (a : Array) (ha : a.WellFormed) (i : Nat) (hpos : 1 ≤ i)
    (hi : i ≤ a.capacity) (v : Int) : Stored little a i v ↔ Fitting little a i v := by
  obtain ⟨i, rfl⟩ := Nat.exists_eq_add_of_le' hpos
  have hcapacity := ha.capacity_lt
  obtain ⟨values, hput⟩ := putval_isSome little ha hi (unsigned 32 v)
  have hset : bitarraySet little a (i + 1 : Nat) v = .ok { a with values := values } := by
    rw [bitarraySet_eq ha hi, hput]
    rfl
  have hstored : Stored little a (i + 1) v ↔
      bitarrayGetval little { a with values := values } (i + 1) = some (unsigned a.elsize v) ∧
      ∀ j, 1 ≤ j → j ≤ a.capacity → j ≠ i + 1 →
        bitarrayGetval little { a with values := values } j = bitarrayGetval little a j := by
    constructor
    · rintro ⟨a', hset', hall⟩
      obtain rfl := Except.ok.inj (hset.symm.trans hset')
      exact hall
    · intro hall
      exact ⟨_, hset, hall⟩
  rw [hstored]
  by_cases hlt : a.elsize < 8
  · have hread (j : Nat) (hj : j < 2 ^ 32) :=
      getval_putval_small ha.elsize_mem hlt hput (show i < 2 ^ 32 by omega) hj
    have hself := hread i (by omega)
    rw [if_pos rfl, unsigned_mod v (le_of_mem ha.elsize_mem)] at hself
    rw [Fitting, if_pos hlt]
    constructor
    · rintro ⟨-, hothers⟩ j x hjpos hji hbyte hx
      obtain ⟨j, rfl⟩ := Nat.exists_eq_add_of_le' hjpos
      rw [Nat.add_sub_cancel, Nat.add_sub_cancel, mul_div_perByte ha.elsize_mem hlt,
        mul_div_perByte ha.elsize_mem hlt] at hbyte
      have hsame := hothers (j + 1) hjpos (by omega) (by omega)
      rw [hread j (by omega), if_neg (by omega), if_pos ⟨by omega, hbyte⟩, hx] at hsame
      rw [Nat.add_sub_add_right]
      exact Option.some.inj hsame
    · intro hfitting
      refine ⟨hself, fun j hjpos hj hne => ?_⟩
      obtain ⟨j, rfl⟩ := Nat.exists_eq_add_of_le' hjpos
      rw [hread j (by omega), if_neg (by omega)]
      split
      · rename_i hearlier
        cases hx : bitarrayGetval little a (j + 1) with
        | none => rfl
        | some x =>
            have hbits := hfitting (j + 1) x hjpos (by omega) (by
              rw [Nat.add_sub_cancel, Nat.add_sub_cancel, mul_div_perByte ha.elsize_mem hlt,
                mul_div_perByte ha.elsize_mem hlt]
              exact hearlier.2) hx
            rw [Nat.add_sub_add_right] at hbits
            rw [Option.map_some, hbits]
      · rfl
  · have hge := Nat.le_of_not_lt hlt
    have hread (j : Nat) (hj : j < 2 ^ 32) := getval_putval_wide ha.elsize_mem hge hput hj
    rw [Fitting, if_neg hlt, hread i (by omega), if_pos rfl]
    constructor
    · rintro ⟨hself, -⟩
      exact (Option.some.inj hself).symm
    · intro hzero
      refine ⟨congrArg some hzero.symm, fun j hjpos hj hne => ?_⟩
      obtain ⟨j, rfl⟩ := Nat.exists_eq_add_of_le' hjpos
      rw [hread j (by omega), if_neg (by omega)]

/-- Sixteen elements of 2 bits, which are all 1. -/
def quarters : Array := ⟨16, 2, [0x55, 0x55, 0x55, 0x55]⟩

theorem quarters_wellFormed : quarters.WellFormed := ⟨by decide, by decide, by decide⟩

theorem stored_iff_quarters : Stored true quarters 6 3 := by
  refine (stored_iff true quarters quarters_wellFormed 6 (by decide) (by decide) 3).mpr ?_
  intro j x hjpos hj hbyte hx
  have hj : j = 5 := by
    simp only [quarters] at hbyte
    omega
  subst hj
  obtain rfl : 1 = x := Option.some.inj hx
  decide

/-- A byte that is stored in an array of bytes. -/
theorem not_stored_byte : ¬ Stored true ⟨1, 8, [0]⟩ 1 1 := by
  rintro ⟨a', hset, hself, -⟩
  obtain rfl := Except.ok.inj hset
  exact absurd hself (by decide)

end Bitarray
