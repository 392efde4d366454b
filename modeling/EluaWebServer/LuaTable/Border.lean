import EluaWebServer.LuaTable.Next

/-!
# The length of a table

`luaH_getn` looks for a border: an index whose element is not nil and the next
one is, or 0 when the first element is nil.  It halves an interval of the array
part, or goes on in the hash part by doubling the index, and looks at one index
after the other when there are elements up to very large ones.
-/

namespace LuaTable

/-! ## Searching for a border -/

/-- `while (j - i > 1)`: the middle takes the place of `j` or of `i`. -/
def bisect (present : Nat → Bool) : Nat → Nat → Nat → Option Nat
  | 0, _, _ => none
  | n + 1, i, j =>
      if 1 < j - i then
        let m := (i + j) / 2
        if present m then bisect present n m j else bisect present n i m
      else some i

/-- `while (!ttisnil(luaH_getnum(t, i))) i++` -/
def linear (present : Nat → Bool) : Nat → Nat → Option Nat
  | 0, _ => none
  | n + 1, i => if present i then linear present n (i + 1) else some i

/-- `unbound_search`, from the loop that doubles `j` on. -/
def unboundLoop (present : Nat → Bool) (limit : Nat) : Nat → Nat → Nat → Option Nat
  | 0, _, _ => none
  | n + 1, i, j =>
      if present j then
        if MAX_INT < j * 2 then (linear present limit 1).map (· - 1)
        else unboundLoop present limit n j (j * 2)
      else bisect present (j + 1) i j

def IsBorder (present : Nat → Bool) (n : Nat) : Prop :=
  (n = 0 ∨ present n = true) ∧ present (n + 1) = false

section

variable {present : Nat → Bool}

theorem bisect_spec {n i j : Nat} (hn : j - i < n) (hij : i < j) (hi : i = 0 ∨ present i = true)
    (hj : present j = false) :
    ∃ b, bisect present n i j = some b ∧ i ≤ b ∧ b < j ∧ IsBorder present b := by
  induction n generalizing i j with
  | zero => omega
  | succ n ih =>
      rw [bisect]
      by_cases hfar : 1 < j - i
      · rw [if_pos hfar]
        dsimp only
        split
        next hm =>
          obtain ⟨b, hb, hle, hlt, hborder⟩ :=
            ih (i := (i + j) / 2) (by omega) (by omega) (Or.inr hm) hj
          exact ⟨b, hb, by omega, hlt, hborder⟩
        next hm =>
          obtain ⟨b, hb, hle, hlt, hborder⟩ :=
            ih (j := (i + j) / 2) (by omega) (by omega) hi (by simpa using hm)
          exact ⟨b, hb, hle, by omega, hborder⟩
      · rw [if_neg hfar]
        obtain rfl : j = i + 1 := by omega
        exact ⟨i, rfl, le_rfl, Nat.lt_succ_self i, hi, hj⟩

/-- The search one by one ends where the first element is missing. -/
theorem linear_spec {n i : Nat} (hi : 0 < i) (hbefore : i = 1 ∨ present (i - 1) = true)
    (hn : ∃ j, i ≤ j ∧ j < i + n ∧ present j = false) :
    ∃ b, linear present n i = some b ∧ 0 < b ∧ b < i + n ∧ IsBorder present (b - 1) := by
  induction n generalizing i with
  | zero =>
      obtain ⟨j, hle, hlt, -⟩ := hn
      omega
  | succ n ih =>
      rw [linear]
      split
      next hp =>
        obtain ⟨j, hle, hlt, hj⟩ := hn
        have hne : j ≠ i := fun heq => by
          rw [heq, hp] at hj
          cases hj
        obtain ⟨b, hb, hpos, hbound, hborder⟩ := ih (i := i + 1) (by omega) (Or.inr hp)
          ⟨j, by omega, by omega, hj⟩
        exact ⟨b, hb, hpos, by omega, hborder⟩
      next hp =>
        refine ⟨i, rfl, hi, by omega, ?_, ?_⟩
        · exact hbefore.imp_left fun h => by omega
        · rw [Nat.sub_add_cancel hi]
          simpa using hp

theorem unboundLoop_spec {limit n i j : Nat} (hlimit : limit ≤ MAX_INT)
    (hmissing : ∃ k, 1 ≤ k ∧ k < 1 + limit ∧ present k = false) (hij : i < j) (hjmax : j ≤ MAX_INT)
    (hn : 2 ^ 31 ≤ j * 2 ^ n) (hi : i = 0 ∨ present i = true) :
    ∃ b, unboundLoop present limit (n + 1) i j = some b ∧ b < MAX_INT ∧ IsBorder present b := by
  induction n generalizing i j with
  | zero =>
      rw [pow_zero, Nat.mul_one] at hn
      have hmax : MAX_INT < 2 ^ 31 := by decide
      omega
  | succ n ih =>
      rw [unboundLoop]
      split
      next hp =>
        split
        next hover =>
          obtain ⟨b, hb, hpos, hbound, hborder⟩ :=
            linear_spec (i := 1) Nat.one_pos (Or.inl rfl) hmissing
          refine ⟨b - 1, ?_, by omega, hborder⟩
          rw [hb]
          rfl
        next hover =>
          refine ih (by omega) (by omega) ?_ (Or.inr hp)
          rw [pow_succ] at hn
          calc 2 ^ 31 ≤ j * (2 ^ n * 2) := hn
            _ = j * 2 * 2 ^ n := by rw [Nat.mul_comm (2 ^ n) 2, Nat.mul_assoc]
      next hp =>
        obtain ⟨b, hb, -, hlt, hborder⟩ :=
          bisect_spec (n := j + 1) (by omega) hij hi (by simpa using hp)
        exact ⟨b, hb, by omega, hborder⟩

end

/-! ## `luaH_getn` -/

variable {α β : Type} [Key α] [DecidableEq α]

def getnum (t : Table α β) (j : Nat) : Option β := (luaHGetnum t j).bind t.value

/-- `limit` bounds the rounds of the search one by one. -/
def unboundSearch (t : Table α β) (limit j : Nat) : Option Nat :=
  unboundLoop (fun j => (getnum t j).isSome) limit 32 j (j + 1)

def luaHGetn (t : Table α β) : Option Nat :=
  let j := t.sizearray
  if 0 < j ∧ (t.array (j - 1)).isNone then
    bisect (fun m => (t.array (m - 1)).isSome) (j + 1) 0 j
  else if t.dummy then some j
  else unboundSearch t (t.sizearray + t.sizenode + 1) j

section

variable {t : Table α β}

/-- An `int` is looked up as the number that it is. -/
theorem getnum_eq {j : Nat} (hj : j < 2 ^ 31) : getnum t j = content t (Key.ofInt j) := by
  have hindex : Key.index (Key.ofInt j : α) = some (j : Int) :=
    Key.index_ofInt _ (by omega) (by omega)
  rw [getnum, content, lookup, luaHGet, hindex]

theorem getnum_array {i : Nat} (hi : i < t.sizearray) : getnum t (i + 1) = t.array i := by
  rw [getnum, luaHGetnum, if_pos (by omega)]
  exact congrArg t.array (by omega)

/-- There are no more elements than places, so that one of the first indices is missing. -/
theorem Ok.exists_missing (hok : Ok t) :
    ∃ j, 1 ≤ j ∧ j < 1 + (places t + 1) ∧ (getnum t j).isSome = false := by
  by_contra hall
  push Not at hall
  have hsize := hok.sizearray_le
  have hnodes : t.sizenode ≤ MAXASIZE := Nat.pow_le_pow_right (by decide) hok.lsizenode_le
  have hpow : 2 * MAXASIZE + 2 < 2 ^ 31 := by decide
  have hplaces : places t = t.sizearray + t.sizenode := rfl
  have hplace : ∀ j ∈ Finset.Icc 1 (places t + 1), ∃ p, keyAt t p = some (Key.ofInt j) := by
    intro j hj
    have hrange := Finset.mem_Icc.mp hj
    have hsome := hall j hrange.1 (by omega)
    rw [getnum_eq (by omega), ne_eq, Bool.not_eq_false] at hsome
    obtain ⟨v, hv⟩ := Option.isSome_iff_exists.mp hsome
    obtain ⟨p, hp, -⟩ := hok.entry_iff_place.mp (hok.lookup_eq_some_iff.mp hv)
    exact ⟨p, hp⟩
  choose! f hf using hplace
  have hcard := Finset.card_le_card_of_injOn f
    (s := Finset.Icc 1 (places t + 1)) (t := Finset.range (places t))
    (fun j hj => Finset.mem_coe.mpr (Finset.mem_range.mpr (hok.keyAt_lt (hf j hj)))) (by
      intro j hj j' hj' heq
      have hrange := Finset.mem_Icc.mp hj
      have hrange' := Finset.mem_Icc.mp hj'
      have hsame : (Key.ofInt j : α) = Key.ofInt j' :=
        Option.some.inj ((hf j hj).symm.trans (heq ▸ hf j' hj'))
      have hindex : Key.index (Key.ofInt j : α) = some (j : Int) :=
        Key.index_ofInt _ (by omega) (by omega)
      rw [hsame, Key.index_ofInt _ (by omega) (by omega)] at hindex
      exact (Int.ofNat_inj.mp (Option.some.inj hindex)).symm)
  rw [Nat.card_Icc, Finset.card_range] at hcard
  omega

/-- **`luaH_getn`** finds a border. -/
theorem Ok.luaHGetn (hok : Ok t) :
    ∃ n, luaHGetn t = some n ∧ n < MAX_INT ∧ IsBorder (fun j => (getnum t j).isSome) n := by
  have hsize := hok.sizearray_le
  have hnodes : t.sizenode ≤ MAXASIZE := Nat.pow_le_pow_right (by decide) hok.lsizenode_le
  have hpow : 2 * MAXASIZE + 2 < MAX_INT := by decide
  have hplaces : places t = t.sizearray + t.sizenode := rfl
  unfold LuaTable.luaHGetn
  dsimp only
  by_cases hlast : 0 < t.sizearray ∧ (t.array (t.sizearray - 1)).isNone = true
  · rw [if_pos hlast]
    have hnone : (t.array (t.sizearray - 1)).isSome = false := by
      rw [Option.isSome_eq_false_iff]
      exact hlast.2
    have hsearch : ∃ b, bisect (fun m => (t.array (m - 1)).isSome) (t.sizearray + 1) 0 t.sizearray =
        some b ∧ 0 ≤ b ∧ b < t.sizearray ∧ IsBorder (fun m => (t.array (m - 1)).isSome) b :=
      bisect_spec (by omega) hlast.1 (Or.inl rfl) hnone
    obtain ⟨b, hb, -, hlt, hzero, hnext⟩ := hsearch
    refine ⟨b, hb, by omega, ?_, ?_⟩
    · rcases Nat.eq_zero_or_pos b with hb0 | hpos
      · exact Or.inl hb0
      · have hsame := getnum_array (t := t) (i := b - 1) (by omega)
        rw [Nat.sub_add_cancel hpos] at hsame
        refine Or.inr ?_
        dsimp only
        rw [hsame]
        exact hzero.resolve_left (by omega)
    · dsimp only
      rw [getnum_array hlt]
      exact hnext
  · rw [if_neg hlast]
    have hfirst : t.sizearray = 0 ∨ (getnum t t.sizearray).isSome = true := by
      rcases Nat.eq_zero_or_pos t.sizearray with hzero | hpos
      · exact Or.inl hzero
      · have hsame := getnum_array (t := t) (i := t.sizearray - 1) (by omega)
        rw [Nat.sub_add_cancel hpos] at hsame
        rw [hsame]
        have hne : ¬(t.array (t.sizearray - 1)).isNone = true := fun h => hlast ⟨hpos, h⟩
        exact Or.inr (Option.isSome_iff_ne_none.mpr (by simpa using hne))
    by_cases hdummy : t.dummy = true
    · rw [if_pos hdummy]
      refine ⟨t.sizearray, rfl, by omega, hfirst, ?_⟩
      have hempty := (hok.dummy hdummy).2.2
      have hnone : getnum t (t.sizearray + 1) = none := by
        rw [getnum, luaHGetnum, if_neg (by omega), findNode_eq_none fun i => by
          rw [hempty i]
          intro h
          cases h]
        rfl
      dsimp only
      rw [hnone]
      rfl
    · rw [if_neg hdummy]
      exact unboundLoop_spec (n := 31) (by omega) hok.exists_missing (Nat.lt_succ_self _) (by omega)
        (Nat.le_mul_of_pos_left _ (Nat.succ_pos _)) hfirst

end

/-- **The length of a table is a border** of what it holds, after any assignments; the search for
it ends. -/
theorem length_border {narray nhash : Nat} {t₀ t : Table α β} (hnew : luaHNew narray nhash = .ok t₀)
    (hsize : narray ≤ MAXASIZE) {ops : List (Op α β)} (hfits : ∀ op ∈ ops, op.Fits)
    (hrun : ops.foldlM perform t₀ = .ok t) :
    ∃ n, luaHGetn t = some n ∧ (n = 0 ∨ content t (Key.ofInt n) ≠ none) ∧
      content t (Key.ofInt (n + 1)) = none := by
  have hok := (luaHNew_ok hnew hsize).1.of_run hfits hrun
  obtain ⟨n, hn, hlt, hzero, hnext⟩ := hok.luaHGetn
  have hmax : MAX_INT + 1 = 2 ^ 31 := by decide
  dsimp only at hzero hnext
  refine ⟨n, hn, hzero.imp_right fun h => ?_, ?_⟩
  · rw [getnum_eq (by omega)] at h
    exact Option.ne_none_iff_isSome.mpr h
  · rw [getnum_eq (by omega)] at hnext
    exact Option.isNone_iff_eq_none.mp (by simpa using hnext)

theorem length_border_sample :
    ∃ t₀ t : Table TKey Nat, luaHNew 2 0 = .ok t₀ ∧
      [Op.setnum 1 (some 5), Op.setnum 2 none].foldlM perform t₀ = .ok t ∧
      ∃ n, luaHGetn t = some n ∧ (n = 0 ∨ content t (Key.ofInt n) ≠ none) ∧
        content t (Key.ofInt (n + 1)) = none := by
  obtain ⟨t₀, ht₀⟩ : ∃ t : Table TKey Nat, luaHNew 2 0 = .ok t := ⟨_, rfl⟩
  have hrun : ∃ t, [Op.setnum 1 (some 5), Op.setnum 2 none].foldlM perform t₀ = .ok t := by
    obtain rfl := Except.ok.inj ht₀
    exact ⟨_, rfl⟩
  obtain ⟨t, ht⟩ := hrun
  refine ⟨t₀, t, ht₀, ht, length_border ht₀ (by decide) ?_ ht⟩
  simp [Op.Fits]

end LuaTable
