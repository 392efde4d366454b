import EluaWebServer.Lib.Decimal

/-!
# Lua values

What `json.stringify` gets and `json.parse` returns.  A value without cycles is
the tree that it unfolds to, and the entries of a table are in the order of
`pairs`.  `json.null` is nil, as the module leaves it, or a table that a program
has put there, which is a leaf of its own.
-/

namespace LuaJson

open Decimal

/-- The keys of tables.  The other keys are told apart by a number. -/
inductive Key where
  | string (s : List UInt8)
  | number (x : Number)
  | other (id : Nat)
  deriving DecidableEq

mutual

inductive Value where
  | nil
  | boolean (b : Bool)
  | number (x : Number)
  | string (s : List UInt8)
  /-- The table in `json.null`. -/
  | sentinel
  | table (entries : Entries)
  | function
  | userdata
  | other

inductive Entries where
  | nil
  | cons (key : Key) (value : Value) (rest : Entries)

end

def Entries.toList : Entries → List (Key × Value)
  | .nil => []
  | .cons k v rest => (k, v) :: rest.toList

/-- `luai_numeq`. -/
def numEq : Number → Number → Bool
  | .finite a x, .finite b y => x = y && (a = b || x = 0)
  | .inf a, .inf b => a = b
  | _, _ => false

/-- `luaO_rawequalObj`, of keys. -/
def Key.eq : Key → Key → Bool
  | .string s, .string t => s = t
  | .number x, .number y => numEq x y
  | .other a, .other b => a = b
  | _, _ => false

/-- A string or a number. -/
def Key.isString : Key → Bool
  | .other _ => false
  | _ => true

/-- An integer as a number. -/
def ofInt (n : Int) : Number := .finite (n < 0) n.natAbs

/-- The key of an element. -/
def index (i : Nat) : Key := .number (ofInt i)

section

variable {α β : Type}

/-- `lua_gettable`; nil is `none`. -/
def get (es : List (Key × α)) (k : Key) : Option α := (es.find? fun e => e.1.eq k).map Prod.snd

/-- The loop of `ipairs`, for a number of entries that it can find. -/
def itemsFrom (es : List (Key × α)) : Nat → Nat → List α
  | 0, _ => []
  | n + 1, i =>
      match get es (index i) with
      | none => []
      | some v => v :: itemsFrom es n (i + 1)

/-- What `ipairs` goes through. -/
def items (es : List (Key × α)) : List α := itemsFrom es es.length 1

/-- What the loop over `pairs` does not skip. -/
def members (es : List (Key × α)) : List (Key × α) := es.filter fun e => e.1.isString

/-! ## Entries and what is computed from them -/

/-- The entries with something else in the place of the values. -/
def onValues (f : α → β) (es : List (Key × α)) : List (Key × β) := es.map (Prod.map id f)

theorem get_onValues (f : α → β) (es : List (Key × α)) (k : Key) :
    get (onValues f es) k = (get es k).map f := by
  unfold get onValues
  rw [List.find?_map, Option.map_map, Option.map_map]
  rfl

theorem itemsFrom_onValues (f : α → β) (es : List (Key × α)) (n i : Nat) :
    itemsFrom (onValues f es) n i = (itemsFrom es n i).map f := by
  induction n generalizing i with
  | zero => rfl
  | succ n ih =>
      rw [itemsFrom, itemsFrom, get_onValues]
      cases get es (index i) with
      | none => rfl
      | some v => exact congrArg (f v :: ·) (ih (i + 1))

theorem items_onValues (f : α → β) (es : List (Key × α)) :
    items (onValues f es) = (items es).map f := by
  unfold items
  rw [itemsFrom_onValues, onValues, List.length_map]

theorem members_onValues (f : α → β) (es : List (Key × α)) :
    members (onValues f es) = (members es).map (Prod.map id f) := by
  unfold members onValues
  rw [List.filter_map]
  rfl

theorem mem_of_get {es : List (Key × α)} {k : Key} {v : α} (h : get es k = some v) :
    ∃ e ∈ es, e.2 = v ∧ e.1.eq k = true := by
  obtain ⟨e, he, rfl⟩ := Option.map_eq_some_iff.mp h
  exact ⟨e, List.mem_of_find?_eq_some he, rfl,
    List.find?_some (p := fun e : Key × α => e.1.eq k) he⟩

theorem mem_of_itemsFrom {es : List (Key × α)} {n i : Nat} {v : α}
    (h : v ∈ itemsFrom es n i) : ∃ e ∈ es, e.2 = v := by
  induction n generalizing i with
  | zero => exact absurd h List.not_mem_nil
  | succ n ih =>
      rw [itemsFrom] at h
      cases hget : get es (index i) with
      | none =>
          rw [hget] at h
          exact absurd h List.not_mem_nil
      | some w =>
          rw [hget] at h
          rcases List.mem_cons.mp h with rfl | h
          · obtain ⟨e, he, heq, -⟩ := mem_of_get hget
            exact ⟨e, he, heq⟩
          · exact ih h

theorem mem_of_items {es : List (Key × α)} {v : α} (h : v ∈ items es) : ∃ e ∈ es, e.2 = v :=
  mem_of_itemsFrom h

/-- A table with a first element has items. -/
theorem items_cons {es : List (Key × α)} {v : α} (h : get es (index 1) = some v) :
    ∃ vs, items es = v :: vs := by
  unfold items
  cases es with
  | nil => cases h
  | cons e es =>
      rw [List.length_cons, itemsFrom, h]
      exact ⟨_, rfl⟩

end

end LuaJson
