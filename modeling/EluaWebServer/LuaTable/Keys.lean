import EluaWebServer.LuaTable.Table
import Mathlib.Data.List.Range

/-!
# The keys of an integer build

Where `lua_Number` is a `long` of 32 bits, every number is an array index if it
is large enough, and none is NaN.  Strings are interned, so that they are equal
exactly when their characters are.
-/

namespace LuaTable

inductive TKey where
  | boolean (b : Bool)
  | number (n : Int32)
  | string (s : List UInt8)
  deriving DecidableEq

/-- The hash that `luaS_newlstr` computes; of a long string it does not take all characters. -/
def luaSHash (str : List UInt8) : UInt32 :=
  let l := str.length
  let step := (l >>> 5) + 1
  ((List.range (l / step)).map fun i => l - i * step).foldl
    (fun h l1 => h ^^^ ((h <<< 5) + (h >>> 2) + (str.getD (l1 - 1) 0).toUInt32)) l.toUInt32

/-- 0 is at the first node, where its hash puts it as well. -/
instance : Key TKey where
  hash
    | .boolean b => .pow2 b.toNat
    | .number n => .mod n.toUInt32.toNat
    | .string s => .pow2 (luaSHash s).toNat
  index
    | .number n => some n.toInt
    | _ => none
  ofInt k := .number (Int32.ofInt k)
  isNaN _ := false
  index_ofInt := by
    intro k hlow hhigh
    exact congrArg some (Int32.toInt_ofInt_of_le hlow hhigh)
  ofInt_index := by
    intro a k h
    cases a with
    | number n =>
        obtain rfl := Option.some.inj h
        exact congrArg TKey.number (Int32.ofInt_toInt n)
    | boolean b => cases h
    | string s => cases h
  not_isNaN_of_index := fun _ => rfl

end LuaTable
