import EluaWebServer.Bitarray.New

/-!
# Unpacking and making again

The bytes of an array make an array of the same elements, unless they are taken for a capacity.
-/

namespace Bitarray

/-- Whole bytes are filled with elements, whose bits can be counted. -/
structure Array.Whole (a : Array) : Prop extends a.WellFormed where
  capacity_pos : 0 < a.capacity
  size_lt : a.capacity * a.elsize < 2 ^ 32
  multiple : a.capacity * a.elsize = 8 * a.values.length

/-- The same capacity and elements. -/
structure Same (little : Bool) (a b : Array) : Prop where
  capacity : b.capacity = a.capacity
  elements : ∀ i, 1 ≤ i → i ≤ a.capacity → bitarrayGetval little b i = bitarrayGetval little a i

/-- A table with some integers, from index 1 on. -/
def tableOf (xs : List Nat) : Arg := .table xs.length fun i => xs.getD (i - 1) 0

/-- What is unpacked lists the elements, or makes the same array again. -/
structure RoundTrips (L : Lua) (a : Array) : Prop where
  string : ∀ fuel, ∃ s b, bitarrayTostring L.little fuel a (some rawText) = .ok s ∧
    bitarrayNew L (.string s) (.number a.elsize) .other = .ok b ∧ Same L.little a b
  table : ∀ fuel, ∃ xs b, bitarrayTotable L.little fuel a (some rawText) = .ok xs ∧
    bitarrayNew L (tableOf xs) (.number a.elsize) .other = .ok b ∧ Same L.little a b
  seq : a.elsize ≤ 8 → ∃ xs s, s.map UInt8.toNat = xs ∧
    (List.range' 1 a.capacity).map (bitarrayGetval L.little a) = xs.map some ∧
    ∃ n, ∀ fuel, n ≤ fuel → bitarrayTotable L.little fuel a (some seqText) = .ok xs ∧
      bitarrayTostring L.little fuel a (some seqText) = .ok s

variable {L : Lua} {little : Bool} {a b : Array} {e i k n : Nat}

/-! ## Elements are the bytes -/

theorem Same.length_eq (hsame : Same little a b) (ha : a.Whole) (hb : b.Whole)
    (helsize : b.elsize = a.elsize) : b.values.length = a.values.length := by
  have hsize := hb.multiple
  rw [hsame.capacity, helsize, ha.multiple] at hsize
  omega

/-- The bytes with elements in common are the same. -/
theorem getElem?_small (ha : a.Whole) (hb : b.Whole) (helsize : b.elsize = a.elsize)
    (hsame : Same little a b) (hlt : a.elsize < 8) (hk : k < a.values.length) :
    b.values[k]? = a.values[k]? := by
  have hsizes := hsame.length_eq ha hb helsize
  have hkb : k < b.values.length := hsizes ▸ hk
  have hper := perByte_mul ha.elsize_mem hlt
  have hpos := perByte_pos a.elsize
  have hbyte (x : UInt8) : x.toNat < 2 ^ (perByte a.elsize * a.elsize) := hper ▸ x.toNat_lt
  rw [List.getElem?_eq_getElem hk, List.getElem?_eq_getElem hkb]
  congr 1
  apply UInt8.toNat_inj.mp
  refine Bitfield.eq_of_get (hbyte _) (hbyte _) fun r hr => ?_
  -- the element in field `r` of byte `k`
  have hcount : a.capacity = a.values.length * perByte a.elsize := by
    have hmul : a.capacity * a.elsize = a.values.length * perByte a.elsize * a.elsize := by
      rw [Nat.mul_assoc, hper, ha.multiple, Nat.mul_comm]
    exact Nat.mul_right_cancel (pos_of_mem ha.elsize_mem) hmul
  have hindex : k * perByte a.elsize + (perByte a.elsize - 1 - r) < a.capacity := by
    calc k * perByte a.elsize + (perByte a.elsize - 1 - r)
        < k * perByte a.elsize + perByte a.elsize := by omega
      _ = (k + 1) * perByte a.elsize := (Nat.succ_mul _ _).symm
      _ ≤ a.capacity := hcount ▸ Nat.mul_le_mul_right _ hk
  have hcapacity := ha.capacity_lt
  have hdiv : (k * perByte a.elsize + (perByte a.elsize - 1 - r)) / perByte a.elsize = k := by
    rw [Nat.mul_comm, Nat.mul_add_div hpos, Nat.div_eq_of_lt (by omega), Nat.add_zero]
  have hplace : place a.elsize (k * perByte a.elsize + (perByte a.elsize - 1 - r)) =
      r * a.elsize := by
    rw [place, Nat.mul_comm k, Nat.mul_add_mod, Nat.mod_eq_of_lt (by omega)]
    congr 1
    omega
  have heq := hsame.elements _ (Nat.succ_pos _) hindex
  rw [Nat.succ_eq_add_one, getval_small (helsize ▸ ha.elsize_mem) (helsize ▸ hlt) (by omega),
    getval_small ha.elsize_mem hlt (by omega), helsize, hdiv, hplace,
    List.getElem?_eq_getElem hk, List.getElem?_eq_getElem hkb] at heq
  exact Option.some.inj heq

/-- So are the bytes of words. -/
theorem getElem?_wide (ha : a.Whole) (hb : b.Whole) (helsize : b.elsize = a.elsize)
    (hsame : Same little a b) (hge : 8 ≤ a.elsize) (hk : k < a.values.length) :
    b.values[k]? = a.values[k]? := by
  have hsizes := hsame.length_eq ha hb helsize
  have hcapacity := ha.capacity_lt
  have hbytes := div_mul_of_mem ha.elsize_mem hge
  have hmultiple := ha.multiple
  generalize hw : a.elsize / 8 = w at hbytes
  have hpos : 0 < w := by omega
  have hcount : a.capacity * w = a.values.length := by
    rw [← hbytes, ← Nat.mul_assoc] at hmultiple
    omega
  have hindex : k / w < a.capacity := by
    rw [Nat.div_lt_iff_lt_mul hpos]
    omega
  have hend : k / w * w + w ≤ a.values.length := by
    rw [← hcount, ← Nat.succ_mul]
    exact Nat.mul_le_mul_right w hindex
  have heq := hsame.elements _ (Nat.succ_pos _) hindex
  rw [Nat.succ_eq_add_one, getval_wide (helsize ▸ hb.elsize_mem) (helsize ▸ hge) (by omega),
    getval_wide ha.elsize_mem hge (by omega), helsize, hw, readWord, readWord,
    if_pos (hsizes ▸ hend), if_pos hend] at heq
  -- the word at `k` has the same bytes
  have hchunk : (b.values.drop (k / w * w)).take w = (a.values.drop (k / w * w)).take w := by
    have hlength {values : List UInt8} (h : k / w * w + w ≤ values.length) :
        ((values.drop (k / w * w)).take w).length = w := by
      rw [List.length_take, List.length_drop]
      omega
    have hnative := congrArg (Bytes.native little w) (Option.some.inj heq)
    have hb' := Bytes.native_ofNative little ((b.values.drop (k / w * w)).take w)
    have ha' := Bytes.native_ofNative little ((a.values.drop (k / w * w)).take w)
    rw [hlength (hsizes ▸ hend)] at hb'
    rw [hlength hend] at ha'
    rwa [hb', ha'] at hnative
  have hbyte := congrArg (·[k % w]?) hchunk
  rwa [List.getElem?_take_of_lt (Nat.mod_lt k hpos), List.getElem?_take_of_lt (Nat.mod_lt k hpos),
    List.getElem?_drop, List.getElem?_drop, Nat.mul_comm, Nat.div_add_mod] at hbyte

/-- **Arrays of the same elements** have the same bytes. -/
theorem values_eq (ha : a.Whole) (hb : b.Whole) (helsize : b.elsize = a.elsize)
    (hsame : Same little a b) : b.values = a.values := by
  apply List.ext_getElem?
  intro k
  have hsizes := hsame.length_eq ha hb helsize
  rcases Nat.lt_or_ge k a.values.length with hk | hk
  · rcases Nat.lt_or_ge a.elsize 8 with hlt | hge
    · exact getElem?_small ha hb helsize hsame hlt hk
    · exact getElem?_wide ha hb helsize hsame hge hk
  · rw [List.getElem?_eq_none hk, List.getElem?_eq_none (hsizes ▸ hk)]

/-! ## Unpacking -/

theorem unpackRaw_eq (ha : a.Whole) : unpackRaw a = .ok a.values := by
  have htotal : roundSize (u32 (a.capacity * a.elsize)) = a.values.length := by
    rw [roundSize_eq, u32, Nat.mod_eq_of_lt ha.size_lt, ha.multiple]
    omega
  rw [unpackRaw, htotal, if_pos (Nat.le_refl _), List.take_length]

/-- The last number of 32 bits is odd, so it is no capacity. -/
theorem Array.Whole.capacity_succ_lt (ha : a.Whole) : a.capacity + 1 < 2 ^ 32 := by
  have hlt := ha.capacity_lt
  have hsize := ha.size_lt
  have hmultiple := ha.multiple
  have hpos := pos_of_mem ha.elsize_mem
  generalize a.capacity = c at *
  rcases Nat.eq_or_lt_of_le (Nat.succ_le_of_lt hpos) with hone | htwo
  · rw [← hone] at hmultiple
    omega
  · have hdouble : c * 2 ≤ c * a.elsize := Nat.mul_le_mul_left c htwo
    omega

/-- The loop over the elements goes through them in order, and ends. -/
theorem unpackSeq_eq (little : Bool) (ha : a.Whole) {i : Nat} (hi : i + n = a.capacity) {fuel : Nat}
    (hfuel : n < fuel) : ∃ xs, unpackSeq little a fuel (i + 1) = .ok xs ∧
      (List.range' (i + 1) n).map (bitarrayGetval little a) = xs.map some := by
  have hcapacity := ha.capacity_succ_lt
  induction n generalizing i fuel with
  | zero =>
      obtain ⟨fuel, rfl⟩ := Nat.exists_eq_succ_of_ne_zero (Nat.ne_of_gt hfuel)
      rw [Nat.succ_eq_add_one, unpackSeq, if_neg (by omega)]
      exact ⟨[], rfl, rfl⟩
  | succ n ih =>
      obtain ⟨fuel, rfl⟩ := Nat.exists_eq_succ_of_ne_zero (Nat.ne_of_gt (Nat.zero_lt_of_lt hfuel))
      obtain ⟨x, hx⟩ := getval_isSome little (i := i) ha.toWellFormed (by omega)
      obtain ⟨xs, hrest, hmap⟩ := ih (show i + 1 + n = a.capacity by omega) (show n < fuel by omega)
      have hnext : u32 (i + 1 + 1) = i + 1 + 1 := Nat.mod_eq_of_lt (by omega)
      rw [Nat.succ_eq_add_one, unpackSeq, if_pos (by omega), hx, hnext, Option.elim_some, hrest]
      refine ⟨x :: xs, rfl, ?_⟩
      rw [List.range'_succ, List.map_cons, List.map_cons, hmap, hx]

/-! ## Making again -/

theorem elsize_number (L : Lua) (he : e ∈ elsizes) : L.elsize (.number e) = e := by
  have hle := le_of_mem he
  show unsigned 8 e = e
  rw [unsigned]
  omega

/-- As many bytes as an array has make one of its capacity. -/
theorem createFrom_eq (ha : a.Whole) {contents : Contents} {values : List UInt8}
    (hstore : contents.store a.values.length = some values) :
    createFrom L a.values.length a.elsize contents = .ok ⟨a.capacity, a.elsize, values⟩ := by
  have hpos := pos_of_mem ha.elsize_mem
  have hmultiple := ha.multiple
  have hsize := ha.size_lt
  have hbits : (a.values.length <<< 3) % 2 ^ L.sizeBits = a.capacity * a.elsize := by
    have hle : 2 ^ 32 ≤ 2 ^ L.sizeBits := Nat.pow_le_pow_right (by decide) L.sizeBits_ge
    rw [Nat.shiftLeft_eq, Nat.mul_comm, hmultiple]
    exact Nat.mod_eq_of_lt (by omega)
  have hproduct : 0 < a.capacity * a.elsize := Nat.mul_pos ha.capacity_pos hpos
  have htotal : (a.capacity * a.elsize % 2 ^ 32 + 7) / 8 = a.values.length := by omega
  have hwhole : ¬(a.capacity * a.elsize) % a.elsize ≠ 0 := not_not_intro (Nat.mul_mod_left _ _)
  rw [createFrom, hbits, if_neg (Nat.ne_of_gt hpos), if_neg hwhole,
    Nat.mul_div_cancel _ hpos, u32, Nat.mod_eq_of_lt ha.capacity_lt,
    create_eq ha.elsize_mem (by omega), htotal, hstore]
  rfl

theorem store_buf (s : List UInt8) : (Contents.buf s).store s.length = some s := by
  rw [Contents.store, if_pos (Nat.le_refl _), Nat.sub_self, List.replicate_zero, List.append_nil]

/-- The bytes of a table of bytes. -/
theorem store_tableOf (s : List UInt8) :
    (Contents.fromarray s.length fun i => ((s.map UInt8.toNat).getD (i - 1) 0 : Nat)).store
      s.length = some s := by
  have hzeros : (List.replicate s.length (0 : UInt8)).length = s.length := List.length_replicate
  rw [Contents.store, copyArray_eq _ (k := 0) (by omega), List.take_zero, List.nil_append,
    Nat.zero_add, List.drop_of_length_le (by omega), List.append_nil]
  congr 1
  apply List.ext_getElem?
  intro k
  rcases Nat.lt_or_ge k s.length with hk | hk
  · rw [List.getElem?_map, List.getElem?_range' hk, Option.map_some, Nat.one_mul,
      Nat.add_sub_cancel_left, List.getD_eq_getElem?_getD, List.getElem?_map,
      List.getElem?_eq_getElem hk]
    have hbyte := (s[k]).toNat_lt
    have hvalue : unsigned 8 ((s[k]).toNat : Nat) = (s[k]).toNat := by
      rw [unsigned]
      omega
    rw [Option.map_some, Option.getD_some, hvalue, UInt8.ofNat_toNat]
  · rw [List.getElem?_eq_none hk, List.getElem?_eq_none (by simpa using hk)]

theorem same_self (little : Bool) (a : Array) : Same little a a := ⟨rfl, fun _ _ _ => rfl⟩

/-- **A table** of the bytes makes the same array. -/
theorem bitarrayNew_table (ha : a.Whole) :
    bitarrayNew L (tableOf (a.values.map UInt8.toNat)) (.number a.elsize) .other = .ok a := by
  have hnew : bitarrayNew L (tableOf (a.values.map UInt8.toNat)) (.number a.elsize) .other =
      createFrom L (a.values.map UInt8.toNat).length (L.elsize (.number a.elsize))
        (.fromarray (a.values.map UInt8.toNat).length fun i =>
          ((a.values.map UInt8.toNat).getD (i - 1) 0 : Nat)) := rfl
  rw [hnew, elsize_number L ha.elsize_mem, List.length_map]
  exact createFrom_eq ha (store_tableOf a.values)

/-- A string of them does, when it is no number. -/
theorem bitarrayNew_string (ha : a.Whole) (hnumber : L.str2number a.values = none) :
    bitarrayNew L (.string a.values) (.number a.elsize) .other = .ok a := by
  have hnumber' : L.number? (.string a.values) = none := hnumber
  unfold bitarrayNew
  rw [hnumber', elsize_number L ha.elsize_mem]
  exact createFrom_eq ha (store_buf a.values)

/-- What a number makes has zeros only. -/
theorem values_of_number (ha : a.Whole) {s : List UInt8} {m : Int}
    (hnumber : L.str2number s = some m)
    (hnew : bitarrayNew L (.string s) (.number a.elsize) .other = .ok b)
    (hsame : Same L.little a b) : ∃ n, a.values = List.replicate n 0 := by
  have hnumber' : L.number? (.string s) = some m := hnumber
  have hbits : a.capacity * a.elsize % 2 ^ 32 ≠ 0 := by
    rw [Nat.mod_eq_of_lt ha.size_lt]
    exact Nat.ne_of_gt (Nat.mul_pos ha.capacity_pos (pos_of_mem ha.elsize_mem))
  unfold bitarrayNew at hnew
  rw [hnumber', elsize_number L ha.elsize_mem] at hnew
  dsimp only at hnew
  by_cases hempty : unsigned 32 m * a.elsize % 2 ^ 32 = 0
  · rw [create_empty ha.elsize_mem hempty] at hnew
    cases hnew
  rw [create_eq ha.elsize_mem hempty] at hnew
  obtain rfl := Except.ok.inj hnew
  have hcapacity : unsigned 32 m = a.capacity := hsame.capacity
  rw [hcapacity] at hsame
  have hmultiple := ha.multiple
  have hsize := ha.size_lt
  have hb : (Array.mk a.capacity a.elsize
      (List.replicate ((a.capacity * a.elsize % 2 ^ 32 + 7) / 8) 0)).Whole := by
    refine ⟨⟨ha.elsize_mem, ha.capacity_lt, ?_⟩, ha.capacity_pos, hsize, ?_⟩
    · dsimp only
      rw [List.length_replicate]
      omega
    · dsimp only
      rw [List.length_replicate]
      omega
  exact ⟨_, (values_eq ha hb rfl hsame).symm⟩

/-! ## The lists -/

/-- A word of one byte. -/
theorem readWord_one (little : Bool) (values : List UInt8) (i : Nat) :
    readWord little values i 1 = values[i]?.map UInt8.toNat := by
  rcases Nat.lt_or_ge i values.length with hi | hi
  · rw [readWord, if_pos (Nat.succ_le_of_lt hi), List.getElem?_eq_getElem hi,
      List.drop_eq_getElem_cons hi]
    cases little with
    | false => rfl
    | true => rfl
  · rw [readWord, if_neg (Nat.not_le.mpr (Nat.lt_succ_of_le hi)), List.getElem?_eq_none hi]
    rfl

/-- Elements of at most 8 bits are bytes. -/
theorem getval_lt (ha : a.Whole) (hle : a.elsize ≤ 8) {x : Nat}
    (hx : bitarrayGetval little a (i + 1) = some x) (hi : i < 2 ^ 32) : x < 256 := by
  rcases Nat.lt_or_ge a.elsize 8 with hlt | hge
  · rw [getval_small ha.elsize_mem hlt hi] at hx
    obtain ⟨b, -, rfl⟩ := Option.map_eq_some_iff.mp hx
    exact Nat.lt_of_lt_of_le (Bitfield.get_lt _ _ _) (Nat.pow_le_pow_right (by decide) hle)
  · have height : a.elsize / 8 = 1 := by omega
    rw [getval_wide ha.elsize_mem hge hi, height, readWord_one] at hx
    obtain ⟨b, -, rfl⟩ := Option.map_eq_some_iff.mp hx
    exact b.toNat_lt

/-- **The lists** of elements, as bytes and as integers. -/
theorem seq_lists (ha : a.Whole) (hle : a.elsize ≤ 8) : ∃ xs s, s.map UInt8.toNat = xs ∧
    (List.range' 1 a.capacity).map (bitarrayGetval little a) = xs.map some ∧
    ∃ n, ∀ fuel, n ≤ fuel → bitarrayTotable little fuel a (some seqText) = .ok xs ∧
      bitarrayTostring little fuel a (some seqText) = .ok s := by
  obtain ⟨xs, -, hmap⟩ := unpackSeq_eq little ha (Nat.zero_add a.capacity)
    (Nat.lt_succ_self _)
  have hbytes : ∀ x ∈ xs, x < 256 := by
    intro x hx
    have hsome : some x ∈ xs.map some := List.mem_map_of_mem hx
    rw [← hmap] at hsome
    obtain ⟨i, hi, hvalue⟩ := List.mem_map.mp hsome
    obtain ⟨hpos, hlt⟩ := List.mem_range'_1.mp hi
    obtain ⟨i, rfl⟩ := Nat.exists_eq_add_of_le' hpos
    have hcapacity := ha.capacity_lt
    exact getval_lt ha hle hvalue (by omega)
  have hround : (xs.map UInt8.ofNat).map UInt8.toNat = xs := by
    rw [List.map_map]
    refine (List.map_congr_left fun x hx => ?_).trans (List.map_id xs)
    exact (UInt8.toNat_ofNat').trans (Nat.mod_eq_of_lt (hbytes x hx))
  refine ⟨xs, _, hround, hmap, a.capacity + 1, fun fuel hfuel => ?_⟩
  obtain ⟨xs', hseq, hmap'⟩ := unpackSeq_eq little ha (Nat.zero_add a.capacity) hfuel
  rw [Nat.zero_add] at hseq hmap'
  obtain rfl : xs' = xs := List.map_injective_iff.mpr (Option.some_injective Nat)
    (hmap'.symm.trans hmap)
  have hmode : unpackMode (some seqText) = .ok .BITARRAY_UNPACK_SEQ := rfl
  have hsize : ¬ (Mode.BITARRAY_UNPACK_SEQ = .BITARRAY_UNPACK_SEQ ∧ 8 < a.elsize) :=
    fun h => absurd h.2 (Nat.not_lt.mpr hle)
  constructor
  · rw [bitarrayTotable, hmode, Except.bind, if_neg hsize, if_pos rfl, hseq]
  · rw [bitarrayTostring, hmode, Except.bind, if_neg hsize, if_pos rfl, hseq]
    rfl

/-- The bytes of an array, as a string and as a table. -/
theorem raw_lists (ha : a.Whole) (fuel : Nat) :
    bitarrayTostring little fuel a (some rawText) = .ok a.values ∧
      bitarrayTotable little fuel a (some rawText) = .ok (a.values.map UInt8.toNat) := by
  have hmode : unpackMode (some rawText) = .ok .BITARRAY_UNPACK_RAW := rfl
  constructor
  · rw [bitarrayTostring, hmode, Except.bind, if_neg (fun h => nomatch h.1), if_neg (nomatch ·),
      unpackRaw_eq ha]
  · rw [bitarrayTotable, hmode, Except.bind, if_neg (fun h => nomatch h.1), if_neg (nomatch ·),
      unpackRaw_eq ha]
    rfl

/-- **Round trip.**  What is unpacked lists the elements and makes the array again, exactly when its
bytes are no number.  A string of zero bytes is none, as it is empty for C. -/
theorem roundTrips_iff (L : Lua) (hzeros : ∀ n, L.str2number (List.replicate n 0) = none)
    (a : Array) (ha : a.Whole) : RoundTrips L a ↔ L.str2number a.values = none := by
  constructor
  · intro h
    obtain ⟨s, b, hstring, hnew, hsame⟩ := h.string 0
    obtain rfl := Except.ok.inj ((raw_lists ha 0).1.symm.trans hstring)
    cases hnumber : L.str2number a.values with
    | none => rfl
    | some m =>
        obtain ⟨n, hvalues⟩ := values_of_number ha hnumber hnew hsame
        rw [hvalues, hzeros n] at hnumber
        cases hnumber
  · intro hnumber
    refine ⟨fun fuel => ?_, fun fuel => ?_, fun hle => seq_lists ha hle⟩
    · exact ⟨a.values, a, (raw_lists ha fuel).1, bitarrayNew_string ha hnumber,
        same_self L.little a⟩
    · exact ⟨_, a, (raw_lists ha fuel).2, bitarrayNew_table ha, same_self L.little a⟩

/-- A machine on which a string of one digit is a number, and no other string. -/
def digits : Lua where
  little := true
  sizeBits := 32
  sizeBits_ge := plain.sizeBits_ge
  str2number
    | [c] => if 0x30 ≤ c ∧ c ≤ 0x39 then some ((c - 0x30).toNat : Nat) else none
    | _ => none

theorem digits_zeros (n : Nat) : digits.str2number (List.replicate n 0) = none := by
  match n with
  | 0 => rfl
  | 1 => rfl
  | n + 2 => rfl

theorem roundTrips_iff_letters : RoundTrips digits ⟨4, 4, [0x61, 0x35]⟩ :=
  (roundTrips_iff digits digits_zeros ⟨4, 4, [0x61, 0x35]⟩
    ⟨⟨by decide, by decide, by decide⟩, by decide, by decide, by decide⟩).mpr rfl

/-- The byte that is the digit 8 makes an array of 8 elements. -/
theorem not_roundTrips_digit : ¬ RoundTrips digits ⟨1, 8, [0x38]⟩ := by
  intro h
  obtain ⟨s, b, hstring, hnew, hsame⟩ := h.string 0
  obtain rfl := Except.ok.inj hstring
  obtain rfl := Except.ok.inj hnew
  exact absurd hsame.capacity (by decide)

end Bitarray
