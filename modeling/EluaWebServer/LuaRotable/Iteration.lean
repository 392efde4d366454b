import EluaWebServer.Lib.CString
import EluaWebServer.Lib.Ieee
import Mathlib.Data.List.Nodup

/-!
# Iteration over read-only tables

A read-only table is an array of entries that a nil key ends.  `luaR_next` finds
the previous key again by a linear search, and the position is not set when
it is not found.  That happens exactly to the strings which do not fit into the
buffer that they are copied to.
-/

namespace LuaRotable

def LUA_MAX_ROTABLE_NAME : Nat := 32

/-- `lua_Number`, with its conversions from and to `luaR_numkey`; the conversion of a number
that is no `int` has no result. -/
structure LuaNumber where
  N : Type
  ofNumkey : Int32 → N
  toNumkey : N → Option Int32
  toNumkey_ofNumkey : ∀ k, toNumkey (ofNumkey k) = some k

/-- The numbers are `long`, which has 32 bits on the targets. -/
def LuaNumber.integral : LuaNumber := ⟨Int32, id, some, fun _ => rfl⟩

/-- Truncation to an `int`. -/
def doubleToNumkey (b : Nat) : Option Int32 :=
  (Ieee.toInt Ieee.double b).bind fun x =>
    if (-2 ^ 31 : Int) ≤ x ∧ x < 2 ^ 31 then some (Int32.ofInt x) else none

theorem doubleToNumkey_ofInt (k : Int32) :
    doubleToNumkey (Ieee.ofInt Ieee.double k.toInt) = some k := by
  have hlo := k.le_toInt
  have hhi := k.toInt_lt
  have hint := Ieee.isInt_ofInt_double (x := k.toInt) (by omega)
  rw [doubleToNumkey, Ieee.toInt_of_isInt hint, Option.bind_some, if_pos ⟨hlo, hhi⟩,
    Int32.ofInt_toInt]

/-- The numbers are `double`, as bit patterns. -/
def LuaNumber.double : LuaNumber :=
  ⟨Nat, fun k => Ieee.ofInt Ieee.double k.toInt, doubleToNumkey, doubleToNumkey_ofInt⟩

/-- `luaR_key`, of an entry. -/
inductive Key where
  /-- A C string, by its characters. -/
  | strkey (s : List UInt8) (noNul : 0 ∉ s)
  | numkey (k : Int32)
  deriving DecidableEq

/-- `luaR_entry`. -/
structure Entry (ν : Type) where
  key : Key
  value : ν

/-- A key as a Lua value. -/
inductive TKey (num : LuaNumber) where
  | nil
  | string (s : List UInt8)
  | number (x : num.N)
  | other

variable {num : LuaNumber} {ν : Type}

/-- Convert a Lua string to a C string. -/
def luaRGetcstr (src : List UInt8) (maxsize : Nat) : List UInt8 :=
  if maxsize < src.length + 1 then [] else CString.text src

/-- Whether the search for a string, or for a number without one, ends at a key. -/
def Key.found (strkey : Option (List UInt8)) (numkey : Int32) : Key → Bool
  | .strkey s _ => strkey = some s
  | .numkey k => strkey = none ∧ k = numkey

/-- `luaR_auxfind`, with the entries from position `i` on: the value and the position. -/
def luaRAuxfind (strkey : Option (List UInt8)) (numkey : Int32) (i : Nat) :
    List (Entry ν) → Option (ν × Nat)
  | [] => none
  | pentry :: rest =>
      if pentry.key.found strkey numkey then some (pentry.value, i)
      else luaRAuxfind strkey numkey (i + 1) rest

/-- The Lua value of a key. -/
def Key.toTKey : Key → TKey num
  | .strkey s _ => .string s
  | .numkey k => .number (num.ofNumkey k)

/-- The key and the value at a position, nil behind the last entry. -/
def found : Option (Entry ν) → TKey num × Option ν
  | some e => (e.key.toTKey, some e.value)
  | none => (.nil, none)

/-- `luaR_next_helper`; the key behind the one that ends the table is not read. -/
def luaRNextHelper (pentries : List (Entry ν)) (pos : Nat) : Option (TKey num × Option ν) :=
  if pos ≤ pentries.length then some (found pentries[pos]?) else none

/-- `luaR_next`: the next key and its value, `none` when `keypos` is used unset. -/
def luaRNext (pentries : List (Entry ν)) (key : TKey num) (val : Option ν) :
    Option (TKey num × Option ν) :=
  match key with
  | .nil => luaRNextHelper pentries 0
  | .string s =>
      let strkey := luaRGetcstr s LUA_MAX_ROTABLE_NAME
      (luaRAuxfind (some strkey) 0 0 pentries).bind fun r => luaRNextHelper pentries (r.2 + 1)
  | .number x =>
      (num.toNumkey x).bind fun numkey =>
        (luaRAuxfind none numkey 0 pentries).bind fun r => luaRNextHelper pentries (r.2 + 1)
  | .other => some (.other, val)

/-- The key and the value after some calls, each with the key that the one before returned. -/
def iterate (num : LuaNumber) (pentries : List (Entry ν)) : Nat → Option (TKey num × Option ν)
  | 0 => some (.nil, none)
  | n + 1 => (iterate num pentries n).bind fun r => luaRNext pentries r.1 r.2

/-- The iteration visits the entries in order, each once, and then returns nil. -/
def VisitsAll (num : LuaNumber) (pentries : List (Entry ν)) : Prop :=
  ∀ n, n ≤ pentries.length → iterate num pentries (n + 1) = some (found pentries[n]?)

/-- The strings that are found again. -/
def Key.Fits : Key → Prop
  | .strkey s _ => s.length < LUA_MAX_ROTABLE_NAME
  | .numkey _ => True

/-- The strings that a table is meant to have. -/
def Key.Named : Key → Prop
  | .strkey s _ => s.length ≤ LUA_MAX_ROTABLE_NAME
  | .numkey _ => True

instance : DecidablePred Key.Named
  | .strkey s _ => inferInstanceAs (Decidable (s.length ≤ LUA_MAX_ROTABLE_NAME))
  | .numkey _ => inferInstanceAs (Decidable True)

instance : DecidablePred Key.Fits
  | .strkey s _ => inferInstanceAs (Decidable (s.length < LUA_MAX_ROTABLE_NAME))
  | .numkey _ => inferInstanceAs (Decidable True)

/-! ## The search -/

variable {strkey : Option (List UInt8)} {numkey : Int32} {pentries : List (Entry ν)}

theorem luaRAuxfind_isSome {r : ν × Nat} {i : Nat}
    (h : luaRAuxfind strkey numkey i pentries = some r) :
    ∃ p e, r = (e.value, i + p) ∧ pentries[p]? = some e ∧ e.key.found strkey numkey = true := by
  induction pentries generalizing i with
  | nil => cases h
  | cons pentry rest ih =>
      rw [luaRAuxfind] at h
      split at h
      · rename_i hfound
        exact ⟨0, pentry, (Option.some.inj h).symm, rfl, hfound⟩
      · obtain ⟨p, e, hr, he, hfound⟩ := ih h
        exact ⟨p + 1, e, by rw [hr, Nat.add_right_comm, Nat.add_assoc], he, hfound⟩

/-- A key that only its own entry has is found there. -/
theorem luaRAuxfind_eq {n i : Nat} {e : Entry ν} (he : pentries[n]? = some e)
    (hfound : ∀ j e', pentries[j]? = some e' → (e'.key.found strkey numkey = true ↔ j = n)) :
    luaRAuxfind strkey numkey i pentries = some (e.value, i + n) := by
  induction pentries generalizing n i with
  | nil => cases he
  | cons pentry rest ih =>
      have hhead := hfound 0 pentry rfl
      rw [luaRAuxfind]
      cases n with
      | zero =>
          rw [if_pos (hhead.mpr rfl)]
          cases he
          rfl
      | succ n =>
          have hne : ¬ pentry.key.found strkey numkey = true := by
            intro h
            cases hhead.mp h
          rw [if_neg hne, ih he, Nat.add_right_comm, Nat.add_assoc]
          intro j e' he'
          rw [hfound (j + 1) e' he', Nat.add_right_cancel_iff]

/-- Different keys are different values. -/
theorem Key.toTKey_injective {k k' : Key} (h : (k.toTKey : TKey num) = k'.toTKey) : k = k' := by
  cases k with
  | strkey s hs =>
      cases k' with
      | strkey s' hs' =>
          cases h
          rfl
      | numkey => cases h
  | numkey x =>
      cases k' with
      | strkey => cases h
      | numkey y =>
          have heq := congrArg num.toNumkey (TKey.number.inj h)
          rw [num.toNumkey_ofNumkey, num.toNumkey_ofNumkey] at heq
          rw [Option.some.inj heq]

/-- The entries are told apart by their keys. -/
theorem index_eq_of_key (hkeys : (pentries.map Entry.key).Nodup) {i j : Nat} {e e' : Entry ν}
    (he : pentries[i]? = some e) (he' : pentries[j]? = some e') (hkey : e.key = e'.key) :
    i = j := by
  have hi : i < (pentries.map Entry.key).length := by
    rw [List.length_map]
    exact (List.getElem?_eq_some_iff.mp he).1
  apply (List.getElem?_inj hi hkeys).mp
  rw [List.getElem?_map, List.getElem?_map, he, he', Option.map_some, Option.map_some, hkey]

/-! ## The iteration -/

theorem luaRNextHelper_eq {n : Nat} (hn : n ≤ pentries.length) :
    (luaRNextHelper pentries n : Option (TKey num × Option ν)) = some (found pentries[n]?) :=
  if_pos hn

/-- What is searched for a string key. -/
theorem luaRGetcstr_eq {s : List UInt8} (hs : 0 ∉ s) :
    luaRGetcstr s LUA_MAX_ROTABLE_NAME = if s.length < LUA_MAX_ROTABLE_NAME then s else [] := by
  rw [luaRGetcstr, CString.text_eq hs]
  by_cases hlen : s.length < LUA_MAX_ROTABLE_NAME
  · rw [if_pos hlen, if_neg (by omega)]
  · rw [if_neg hlen, if_pos (by omega)]

/-- **A call.**  From a key that fits, `luaR_next` goes on to the next position. -/
theorem luaRNext_eq (hkeys : (pentries.map Entry.key).Nodup) {n : Nat} {e : Entry ν}
    (he : pentries[n]? = some e) (hfits : e.key.Fits) (val : Option ν) :
    luaRNext pentries (e.key.toTKey : TKey num) val = some (found pentries[n + 1]?) := by
  have hn : n + 1 ≤ pentries.length := (List.getElem?_eq_some_iff.mp he).1
  have hnext : (luaRNextHelper pentries (n + 1) : Option (TKey num × Option ν)) = _ :=
    luaRNextHelper_eq hn
  cases hkey : e.key with
  | strkey s hs =>
      rw [hkey] at hfits
      have hcstr := (luaRGetcstr_eq hs).trans (if_pos hfits)
      have hfind : luaRAuxfind (some s) 0 0 pentries = _ := luaRAuxfind_eq he ?_
      · simp only [Key.toTKey, luaRNext, hcstr, hfind, Option.bind_some, Nat.zero_add, hnext]
      · intro j e' he'
        constructor
        · intro hfound
          apply index_eq_of_key hkeys he' he
          rw [hkey]
          cases hkey' : e'.key with
          | strkey s' hs' =>
              rw [hkey'] at hfound
              obtain rfl := Option.some.inj (of_decide_eq_true hfound)
              rfl
          | numkey k => simp [hkey', Key.found] at hfound
        · intro hj
          subst hj
          obtain rfl := Option.some.inj (he.symm.trans he')
          rw [hkey]
          exact decide_eq_true rfl
  | numkey k =>
      have hfind : luaRAuxfind none k 0 pentries = _ := luaRAuxfind_eq he ?_
      · simp only [Key.toTKey, luaRNext, num.toNumkey_ofNumkey, hfind, Option.bind_some,
          Nat.zero_add, hnext]
      · intro j e' he'
        constructor
        · intro hfound
          apply index_eq_of_key hkeys he' he
          rw [hkey]
          cases hkey' : e'.key with
          | strkey s' hs' => simp [hkey', Key.found] at hfound
          | numkey k' =>
              rw [hkey'] at hfound
              obtain ⟨-, rfl⟩ := of_decide_eq_true hfound
              rfl
        · intro hj
          subst hj
          obtain rfl := Option.some.inj (he.symm.trans he')
          rw [hkey]
          exact decide_eq_true ⟨rfl, rfl⟩

/-- **A call that fails.**  From a string that does not fit, `luaR_next` does not go on to
the next position. -/
theorem luaRNext_ne (hkeys : (pentries.map Entry.key).Nodup) {n : Nat} {e : Entry ν}
    (he : pentries[n]? = some e) (hfits : ¬ e.key.Fits) (val : Option ν) :
    luaRNext pentries (e.key.toTKey : TKey num) val ≠ some (found pentries[n + 1]?) := by
  have hn : n < pentries.length := (List.getElem?_eq_some_iff.mp he).1
  intro hnext
  cases hkey : e.key with
  | numkey k =>
      rw [hkey] at hfits
      exact hfits trivial
  | strkey s hs =>
      rw [hkey] at hfits hnext
      have hcstr := (luaRGetcstr_eq hs).trans (if_neg hfits)
      simp only [Key.toTKey, luaRNext, hcstr, Option.bind_eq_some_iff] at hnext
      obtain ⟨r, hfind, hhelper⟩ := hnext
      obtain ⟨p, e', rfl, he', hfound⟩ := luaRAuxfind_isSome hfind
      have hp : p < pentries.length := (List.getElem?_eq_some_iff.mp he').1
      rw [Nat.zero_add, luaRNextHelper_eq hp, Option.some.injEq] at hhelper
      -- the entry that is found has the empty key
      have hne : p ≠ n := by
        intro heq
        subst heq
        obtain rfl := Option.some.inj (he.symm.trans he')
        rw [hkey] at hfound
        obtain rfl := Option.some.inj (of_decide_eq_true hfound)
        exact hfits (Nat.succ_pos _)
      apply hne
      cases hentry : pentries[n + 1]? with
      | none =>
          cases hother : pentries[p + 1]? with
          | none =>
              rw [List.getElem?_eq_none_iff] at hentry hother
              omega
          | some e₂ =>
              rw [hentry, hother] at hhelper
              cases Prod.mk.inj hhelper with
              | intro _ hvalue => cases hvalue
      | some e₁ =>
          cases hother : pentries[p + 1]? with
          | none =>
              rw [hentry, hother] at hhelper
              cases Prod.mk.inj hhelper with
              | intro _ hvalue => cases hvalue
          | some e₂ =>
              rw [hentry, hother] at hhelper
              have hsame := Key.toTKey_injective (Prod.mk.inj hhelper).1
              exact Nat.succ_injective (index_eq_of_key hkeys hother hentry hsame)

/-- **Iteration.**  All entries of a table with different keys are visited exactly if its
string keys are shorter than `LUA_MAX_ROTABLE_NAME`. -/
theorem visitsAll_iff_fits (num : LuaNumber) (hkeys : (pentries.map Entry.key).Nodup) :
    VisitsAll num pentries ↔ ∀ e ∈ pentries, e.key.Fits := by
  constructor
  · intro hall e hmem
    obtain ⟨n, he⟩ := List.mem_iff_getElem?.mp hmem
    have hn : n < pentries.length := (List.getElem?_eq_some_iff.mp he).1
    by_contra hfits
    have hnext := hall (n + 1) hn
    rw [iterate, hall n (Nat.le_of_lt hn), he, Option.bind_some] at hnext
    exact luaRNext_ne hkeys he hfits _ hnext
  · intro hfits n
    induction n with
    | zero =>
        intro hn
        exact luaRNextHelper_eq hn
    | succ n ih =>
        intro hn
        have he := List.getElem?_eq_getElem hn
        rw [iterate, ih (Nat.le_of_succ_le hn), he, Option.bind_some]
        exact luaRNext_eq hkeys he (hfits _ (List.getElem_mem hn)) _

/-- A string, the empty one and a number. -/
def mixedTable : List (Entry Nat) :=
  [⟨.strkey [112, 105] (by decide), 3⟩, ⟨.numkey (-7), 4⟩, ⟨.strkey [] (by decide), 5⟩]

theorem visitsAll_mixedTable : VisitsAll .double mixedTable :=
  (visitsAll_iff_fits .double (by decide)).mpr (by decide)

/-- A table whose key has as many characters as a name may have. -/
def longestName : List (Entry Nat) := [⟨.strkey (List.replicate 32 97) (by decide), 1⟩]

/-- The key that `luaR_next` has returned is not found again. -/
theorem not_visitsAll_longestName :
    (longestName.map Entry.key).Nodup ∧ (∀ e ∈ longestName, e.key.Named) ∧
      iterate .integral longestName 2 = none ∧ ¬ VisitsAll .integral longestName := by
  have hnone : iterate .integral longestName 2 = none := rfl
  refine ⟨by decide, by decide, hnone, ?_⟩
  intro hall
  have hlast := hall 1 (Nat.le_refl 1)
  rw [hnone] at hlast
  cases hlast

end LuaRotable
