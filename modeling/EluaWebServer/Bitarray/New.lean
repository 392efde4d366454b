import EluaWebServer.Bitarray.Listing

/-!
# Making an array

`bitarray_new` computes how many bytes it needs in 32 bits.  The conversion of strings to numbers
is a parameter.
-/

namespace Bitarray

/-- An argument.  Of a table there are the length and what its elements are as integers. -/
inductive Arg where
  | number (n : Int)
  | string (s : List UInt8)
  | table (len : Nat) (elem : Nat → Int)
  | rotable (len : Nat) (elem : Nat → Int)
  | other

/-- The machine and its Lua. -/
structure Lua where
  little : Bool
  sizeBits : Nat
  sizeBits_ge : 32 ≤ sizeBits
  str2number : List UInt8 → Option Int

/-- `lua_isnumber`, with the integer that `luaL_checkinteger` returns then. -/
def Lua.number? (L : Lua) : Arg → Option Int
  | .number n => some n
  | .string s => L.str2number s
  | _ => none

/-- Where the bytes of an array come from. -/
inductive Contents where
  | fill (b : Nat)
  | buf (s : List UInt8)
  | fromarray (len : Nat) (elem : Nat → Int)

/-- The loop over a table: `n` more elements are stored. -/
def copyArray (elem : Nat → Int) : Nat → Nat → List UInt8 → Option (List UInt8)
  | 0, _, values => some values
  | n + 1, total, values =>
      if total - 1 < values.length then
        copyArray elem n (total + 1)
          (values.set (total - 1) (UInt8.ofNat (unsigned 8 (elem total))))
      else none

/-- The bytes that are stored in `total` allocated ones, which are 0 where nothing is. -/
def Contents.store (total : Nat) : Contents → Option (List UInt8)
  | .fill b => some (List.replicate total (UInt8.ofNat b))
  | .buf s => if s.length ≤ total then some (s ++ List.replicate (total - s.length) 0) else none
  | .fromarray len elem => copyArray elem len 1 (List.replicate total 0)

/-- The element size, if there is one. -/
def Lua.elsize (L : Lua) (arg : Arg) : Nat := (L.number? arg).elim 8 (unsigned 8)

/-- The second half of `bitarray_new`. -/
def create (capacity elsize : Nat) (contents : Contents) : Except Stop Array :=
  if elsize ≤ 0 ∨ 32 < elsize ∨ elsize &&& (elsize - 1) ≠ 0 then
    .error (.error "invalid element size.")
  else
    let total := roundSize (u32 (capacity * elsize))
    if total ≤ 0 then .error (.error "invalid arguments.")
    else (contents.store total).elim (.error .fault) fun values => .ok ⟨capacity, elsize, values⟩

/-- A string or a table of some length. -/
def createFrom (L : Lua) (temp elsize : Nat) (contents : Contents) : Except Stop Array :=
  let bits := (temp <<< 3) % 2 ^ L.sizeBits
  if elsize = 0 then .error .fault
  else if bits % elsize ≠ 0 then
    .error (.error "length is not a multiple of element size.")
  else create (u32 (bits / elsize)) elsize contents

def bitarrayNew (L : Lua) (arg1 arg2 arg3 : Arg) : Except Stop Array :=
  match L.number? arg1 with
  | some n =>
      create (unsigned 32 n) (L.elsize arg2) (.fill ((L.number? arg3).elim 0 (unsigned 8)))
  | none =>
      match arg1 with
      | .string s => createFrom L s.length (L.elsize arg2) (.buf s)
      | .table len elem => createFrom L len (L.elsize arg2) (.fromarray len elem)
      | .rotable len elem => createFrom L len (L.elsize arg2) (.fromarray len elem)
      | _ => .error (.error "invalid arguments.")

/-- There are bytes for all elements, and no access to the array goes out of them. -/
structure Sufficient (little : Bool) (a : Array) : Prop where
  fits : a.capacity * a.elsize ≤ 8 * a.values.length
  get : ∀ idx, Sound (bitarrayGet little a idx)
  set : ∀ idx newval, Sound (bitarraySet little a idx newval)
  pairs : ∀ fuel, Sound (bitarrayPairs little a fuel 0)
  tostring : ∀ fuel mode, Sound (bitarrayTostring little fuel a mode)
  totable : ∀ fuel mode, Sound (bitarrayTotable little fuel a mode)

/-- A Lua error, or an array with enough bytes. -/
def Safe (L : Lua) : Except Stop Array → Prop
  | .ok a => Sufficient L.little a
  | .error (.error _) => True
  | .error _ => False

/-- The length of what an array is made from. -/
def Arg.length? : Arg → Option Nat
  | .string s => some s.length
  | .table len _ => some len
  | .rotable len _ => some len
  | _ => none

/-- The bits can be counted in 32 bits, or nothing is left of them there. -/
def Countable (bits : Nat) : Prop := bits < 2 ^ 32 ∨ bits % 2 ^ 32 = 0

/-- What `bitarray_new` needs: the bits of an array can be counted, and the size by which the
length of a string or table is divided is not 0. -/
def Sane (L : Lua) (arg1 arg2 : Arg) : Prop :=
  match L.number? arg1 with
  | some n => L.elsize arg2 ∈ elsizes → Countable (unsigned 32 n * L.elsize arg2)
  | none =>
      ∀ len, arg1.length? = some len → L.elsize arg2 ≠ 0 ∧
        (L.elsize arg2 ∈ elsizes → 8 * len % L.elsize arg2 = 0 → Countable (8 * len))

variable {L : Lua} {little : Bool} {a : Array} {capacity e n len total : Nat}

/-! ## Sizes -/

theorem elsize_check :
    (e ≤ 0 ∨ 32 < e ∨ e &&& (e - 1) ≠ 0) ↔ e ∉ elsizes := by
  rcases Nat.lt_or_ge 32 e with hlt | hle
  · have hmem : e ∉ elsizes := fun he => absurd (le_of_mem he) (Nat.not_le.mpr hlt)
    exact iff_of_true (.inr (.inl hlt)) hmem
  · revert e
    decide

theorem roundSize_eq (n : Nat) : roundSize n = (n + 7) / 8 := by
  have hand : n &&& 7 = n % 8 := Nat.and_two_pow_sub_one_eq_mod n 3
  rw [roundSize, hand, Nat.shiftRight_eq_div_pow]
  split <;> omega

/-! ## Arrays -/

/-- **An array with bytes** for all of its bits, which 32 bits can count, is sufficient. -/
theorem sufficient (ha : a.WellFormed) (hsize : a.capacity * a.elsize < 2 ^ 32) :
    Sufficient little a := by
  have hfits := ha.fits
  have hcapacity := ha.capacity_lt
  have hraw : Sound (unpackRaw a) := by
    refine unpackRaw_sound ?_
    rw [roundSize_eq, u32, Nat.mod_eq_of_lt hsize]
    omega
  have hseq (fuel : Nat) : Sound (unpackSeq little a fuel 1) :=
    unpackSeq_sound ha (Nat.le_of_lt hsize) fuel (reached_one a)
  refine ⟨hfits, ?_, ?_, ?_, fun fuel => bitarrayTostring_sound fuel (hseq fuel) hraw,
    fun fuel => bitarrayTotable_sound fuel (hseq fuel) hraw⟩
  · intro idx
    rw [bitarrayGet]
    generalize unsigned 32 idx = i
    split
    · exact sound_error (by decide)
    · rename_i hvalid
      obtain ⟨i, rfl⟩ := Nat.exists_eq_succ_of_ne_zero fun hzero => hvalid (.inl hzero)
      obtain ⟨x, hx⟩ := getval_isSome little (i := i) ha (by omega)
      rw [Nat.succ_eq_add_one, hx]
      exact sound_ok _
  · intro idx newval
    rw [bitarraySet]
    generalize unsigned 32 idx = i
    split
    · exact sound_error (by decide)
    · rename_i hvalid
      obtain ⟨values, hput⟩ := putval_isSome little (i := i - 1) ha (by omega)
        (unsigned 32 newval)
      rw [hput]
      exact sound_ok _
  · intro fuel
    exact bitarrayPairs_sound ha (Nat.le_of_lt hsize) fuel (reached_one a)

/-! ## Contents -/

/-- **The loop over a table** stores its elements in the bytes from `k` on. -/
theorem copyArray_eq (elem : Nat → Int) {k : Nat} {values : List UInt8}
    (hroom : k + n ≤ values.length) :
    copyArray elem n (k + 1) values = some (values.take k ++
      (List.range' (k + 1) n).map (fun i => UInt8.ofNat (unsigned 8 (elem i))) ++
      values.drop (k + n)) := by
  induction n generalizing k values with
  | zero =>
      rw [copyArray, List.range'_zero, List.map_nil, List.append_nil, Nat.add_zero,
        List.take_append_drop]
  | succ n ih =>
      have hk : k < values.length := by omega
      rw [copyArray, Nat.add_sub_cancel, if_pos hk, ih (by rw [List.length_set]; omega),
        List.range'_succ, List.map_cons]
      congr 1
      rw [List.take_set, List.take_add_one, List.getElem?_eq_getElem hk, Option.toList_some,
        List.set_append_right _ _ (by rw [List.length_take]; omega), List.length_take,
        Nat.min_eq_left (Nat.le_of_lt hk), Nat.sub_self, List.set_cons_zero,
        List.drop_set_of_lt (by omega), List.append_assoc, List.append_assoc,
        List.append_assoc, Nat.add_assoc k 1 n, Nat.add_comm 1 n]
      rfl

/-- A table that is too long is stored outside. -/
theorem copyArray_none (elem : Nat → Int) {k : Nat} {values : List UInt8}
    (hk : k ≤ values.length) (hroom : values.length < k + n) :
    copyArray elem n (k + 1) values = none := by
  induction n generalizing k values with
  | zero => omega
  | succ n ih =>
      rw [copyArray, Nat.add_sub_cancel]
      split
      · exact ih (by rw [List.length_set]; omega) (by rw [List.length_set]; omega)
      · rfl

/-- Contents of some length, which fill the bytes when they have room. -/
structure Sized (len : Nat) (contents : Contents) : Prop where
  room : ∀ total, len ≤ total →
    ∃ values, contents.store total = some values ∧ values.length = total
  none : ∀ total, total < len → contents.store total = none

theorem sized_buf (s : List UInt8) : Sized s.length (.buf s) := by
  constructor
  · intro total hle
    refine ⟨_, if_pos hle, ?_⟩
    rw [List.length_append, List.length_replicate]
    omega
  · intro total hlt
    exact if_neg (Nat.not_le.mpr hlt)

theorem sized_fromarray (len : Nat) (elem : Nat → Int) : Sized len (.fromarray len elem) := by
  constructor
  · intro total hle
    refine ⟨_, copyArray_eq elem (k := 0) (by rw [List.length_replicate]; omega), ?_⟩
    simp only [List.length_append, List.length_take, List.length_map, List.length_range',
      List.length_drop, List.length_replicate]
    omega
  · intro total hlt
    exact copyArray_none elem (k := 0) (Nat.zero_le _) (by rw [List.length_replicate]; omega)

/-! ## Making -/

theorem create_invalid (he : e ∉ elsizes) (contents : Contents) :
    create capacity e contents = .error (.error "invalid element size.") := by
  rw [create, if_pos (elsize_check.mpr he)]

theorem create_empty (he : e ∈ elsizes) (hbits : capacity * e % 2 ^ 32 = 0) (contents : Contents) :
    create capacity e contents = .error (.error "invalid arguments.") := by
  have hcheck := mt elsize_check.mp (not_not.mpr he)
  have htotal : roundSize (u32 (capacity * e)) ≤ 0 := by
    rw [u32, hbits]
    decide
  rw [create, if_neg hcheck, if_pos htotal]

theorem create_eq (he : e ∈ elsizes) (hbits : capacity * e % 2 ^ 32 ≠ 0) (contents : Contents) :
    create capacity e contents =
      (contents.store ((capacity * e % 2 ^ 32 + 7) / 8)).elim (.error .fault) fun values =>
        .ok ⟨capacity, e, values⟩ := by
  have hcheck := mt elsize_check.mp (not_not.mpr he)
  have htotal : ¬ roundSize (u32 (capacity * e)) ≤ 0 := by
    rw [roundSize_eq, u32]
    omega
  rw [create, if_neg hcheck, if_neg htotal, roundSize_eq, u32]

/-- **A capacity** is safe when its bits can be counted. -/
theorem create_fill_safe_iff (hcapacity : capacity < 2 ^ 32) (b : Nat) :
    Safe L (create capacity e (.fill b)) ↔ (e ∈ elsizes → Countable (capacity * e)) := by
  by_cases he : e ∈ elsizes
  · by_cases hbits : capacity * e % 2 ^ 32 = 0
    · rw [create_empty he hbits]
      exact iff_of_true trivial fun _ => .inr hbits
    · rw [create_eq he hbits]
      constructor
      · rintro ⟨hfits, -⟩ -
        dsimp only at hfits
        rw [List.length_replicate] at hfits
        refine .inl ?_
        omega
      · intro hcountable
        have hlt : capacity * e < 2 ^ 32 := (hcountable he).resolve_right hbits
        refine sufficient ⟨he, hcapacity, ?_⟩ hlt
        dsimp only
        rw [List.length_replicate]
        omega
  · rw [create_invalid he]
    exact iff_of_true trivial fun hmem => absurd hmem he

/-- **A length** is safe when the division is, and its bits can be counted. -/
theorem createFrom_safe_iff {contents : Contents} (hsized : Sized len contents) (e : Nat) :
    Safe L (createFrom L len e contents) ↔
      e ≠ 0 ∧ (e ∈ elsizes → 8 * len % e = 0 → Countable (8 * len)) := by
  have hshift : len <<< 3 = 8 * len := by rw [Nat.shiftLeft_eq, Nat.mul_comm]
  rw [createFrom, hshift]
  by_cases hzero : e = 0
  · rw [if_pos hzero]
    exact iff_of_false id fun h => h.1 hzero
  rw [if_neg hzero]
  by_cases he : e ∈ elsizes
  swap
  · have hright : e ≠ 0 ∧ (e ∈ elsizes → 8 * len % e = 0 → Countable (8 * len)) :=
      ⟨hzero, fun hmem => absurd hmem he⟩
    split
    · exact iff_of_true trivial hright
    · rw [create_invalid he]
      exact iff_of_true trivial hright
  have hdvd : e ∣ 2 ^ L.sizeBits := by
    have hfive : e ∣ 2 ^ 5 := by
      clear hzero
      revert e
      decide
    exact hfive.trans (Nat.pow_dvd_pow 2 (Nat.le_trans (by decide) L.sizeBits_ge))
  have hmod : 8 * len % 2 ^ L.sizeBits % e = 8 * len % e := Nat.mod_mod_of_dvd _ hdvd
  rw [hmod]
  by_cases hmultiple : 8 * len % e = 0
  swap
  · rw [if_pos hmultiple]
    exact iff_of_true trivial ⟨hzero, fun _ h => absurd h hmultiple⟩
  rw [if_neg (not_not.mpr hmultiple)]
  -- the stored capacity has the bits of the string or table, in 32 bits
  have hproduct : 8 * len % 2 ^ L.sizeBits / e * e = 8 * len % 2 ^ L.sizeBits :=
    Nat.div_mul_cancel (Nat.dvd_of_mod_eq_zero (hmod.trans hmultiple))
  have hbits : u32 (8 * len % 2 ^ L.sizeBits / e) * e % 2 ^ 32 = 8 * len % 2 ^ 32 := by
    rw [u32, Nat.mod_mul_mod, hproduct,
      Nat.mod_mod_of_dvd _ (Nat.pow_dvd_pow 2 L.sizeBits_ge)]
  have hiff : (e ≠ 0 ∧ (e ∈ elsizes → 8 * len % e = 0 → Countable (8 * len))) ↔
      Countable (8 * len) :=
    ⟨fun h => h.2 he hmultiple, fun h => ⟨hzero, fun _ _ => h⟩⟩
  rw [hiff]
  by_cases hempty : 8 * len % 2 ^ 32 = 0
  · rw [create_empty he (hbits.trans hempty)]
    exact iff_of_true trivial (.inr hempty)
  rw [create_eq he (fun h => hempty (hbits.symm.trans h)), hbits]
  by_cases hlt : 8 * len < 2 ^ 32
  · obtain ⟨values, hstore, hlength⟩ := hsized.room ((8 * len % 2 ^ 32 + 7) / 8) (by omega)
    rw [hstore]
    have hcapacity : u32 (8 * len % 2 ^ L.sizeBits / e) * e = 8 * len := by
      have hfull : 8 * len % 2 ^ L.sizeBits = 8 * len := Nat.mod_eq_of_lt
        (Nat.lt_of_lt_of_le hlt (Nat.pow_le_pow_right (by decide) L.sizeBits_ge))
      rw [hfull] at hproduct ⊢
      rw [u32, Nat.mod_eq_of_lt (Nat.lt_of_le_of_lt (Nat.div_le_self _ _) hlt), hproduct]
    refine iff_of_true (sufficient ⟨he, Nat.mod_lt _ (by decide), ?_⟩ ?_) (.inl hlt)
    · dsimp only
      omega
    · dsimp only
      omega
  · rw [hsized.none _ (by omega)]
    exact iff_of_false id fun h => h.elim hlt hempty

/-- **Making an array** ends with a Lua error or with enough bytes, exactly when its size is
sane. -/
theorem bitarrayNew_safe_iff (L : Lua) (arg1 arg2 arg3 : Arg) :
    Safe L (bitarrayNew L arg1 arg2 arg3) ↔ Sane L arg1 arg2 := by
  unfold bitarrayNew Sane
  have hlength (arg : Arg) (m : Nat) (contents : Contents) (harg : arg.length? = some m)
      (hsized : Sized m contents) :
      Safe L (createFrom L m (L.elsize arg2) contents) ↔
        ∀ len, arg.length? = some len → L.elsize arg2 ≠ 0 ∧
          (L.elsize arg2 ∈ elsizes → 8 * len % L.elsize arg2 = 0 → Countable (8 * len)) := by
    rw [createFrom_safe_iff hsized, harg]
    constructor
    · intro h len hlen
      exact Option.some.inj hlen ▸ h
    · intro h
      exact h m rfl
  cases L.number? arg1 with
  | some n =>
      refine create_fill_safe_iff ?_ _
      rw [unsigned]
      omega
  | none =>
      cases arg1 with
      | string s => exact hlength (.string s) _ _ rfl (sized_buf s)
      | table len elem => exact hlength (.table len elem) _ _ rfl (sized_fromarray len elem)
      | rotable len elem => exact hlength (.rotable len elem) _ _ rfl (sized_fromarray len elem)
      | number n =>
          refine iff_of_true trivial fun _ h => ?_
          cases h
      | other =>
          refine iff_of_true trivial fun _ h => ?_
          cases h

/-- A machine on which strings are no numbers. -/
def plain : Lua := ⟨true, 32, Nat.le_refl _, fun _ => none⟩

/-- A string with the element size 256, which is 0 in a byte. -/
theorem not_safe_divided : ¬ Safe plain (bitarrayNew plain (.string []) (.number 256) .other) := id

end Bitarray
