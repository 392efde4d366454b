import EluaWebServer.LuaJson.Value
import Mathlib.Data.Fintype.Basic
import Mathlib.Logic.Relation

/-!
# Writing tables that refer to tables

`JSON_stringify` of a graph of tables.  The tables that are being written are
meant to be in the list at `baseList`; its nodes are the memory cells that `malloc`
gives.  What is written is a sequence of pieces: the text of a key or of a value
that is no table is not looked into.  Memory and both stacks suffice.
-/

namespace LuaJson.Graph

open LuaJson

/-! ## The list of the tables that are being written -/

/-- A `linkedList`.  The pointer to a table is its number. -/
structure LinkedList where
  value : Nat
  next : Option Nat
  deriving DecidableEq

/-- The cells that `malloc` has given, one after the other; a cell that has been freed is
`none`. -/
abbrev Cells := List (Option LinkedList)

/-- `*L`. -/
def load (cells : Cells) (L : Nat) : Option LinkedList := (cells[L]?).join

/-- `addToList`, with a bound for the length of the list.  A list that is `NULL` is replaced
in the function's own copy of the pointer only. -/
def addToList (value : Nat) : Nat → Option Nat → Cells → Option Cells
  | _, none, cells => some (cells ++ [some ⟨value, none⟩])
  | 0, some _, _ => none
  | n + 1, some L, cells => do
      let cell ← load cells L
      if cell.next ≠ none then
        addToList value n cell.next cells
      else
        let newL := cells.length
        return (cells.set L (some { cell with next := some newL })) ++ [some ⟨value, none⟩]

/-- `findInList`. -/
def findInList (cells : Cells) (Match : Nat) : Nat → Option Nat → Option (Option Nat)
  | _, none => some none
  | 0, some _ => none
  | n + 1, some ptr => do
      let cell ← load cells ptr
      if cell.value = Match then
        return some ptr
      else
        findInList cells Match n cell.next

/-- `removeLastFromList`. -/
def removeLastFromList : Nat → Option Nat → Option Nat → Cells → Option Cells
  | _, none, _, cells => some cells
  | 0, some _, _, _ => none
  | n + 1, some L, Last, cells => do
      let cell ← load cells L
      if cell.next = none then
        let cells := cells.set L none
        match Last with
        | none => return cells
        | some Last => do
            let last ← load cells Last
            return cells.set Last (some { last with next := none })
      else
        removeLastFromList n cell.next (some L) cells

/-- The cells and the global variable. -/
structure Lists where
  cells : Cells
  baseList : Option Nat

/-! ## Graphs of tables -/

/-- A value that is no table, or the table in `json.null`. -/
inductive Leaf where
  | nil
  | boolean (b : Bool)
  | number (x : Decimal.Number)
  | string (s : List UInt8)
  | sentinel
  | function
  | userdata
  | other
  deriving DecidableEq

/-- A value, in a program with `n` tables. -/
inductive Ref (n : Nat) where
  | leaf (v : Leaf)
  | table (t : Fin n)
  deriving DecidableEq

/-- The entries of every table, in the order of `pairs`. -/
abbrev Tables (n : Nat) := Fin n → List (Key × Ref n)

/-- What is appended to the buffer. -/
inductive Piece where
  | char (c : UInt8)
  | key (k : Key)
  | leaf (v : Leaf)
  | RECURSION
  deriving DecidableEq

section Stringify

variable {n : Nat} (f : Lists → Ref n → Option (Lists × List Piece))

/-- A comma before everything but the first. -/
def comma (first : Bool) : List Piece :=
  if first then [] else [.char 0x2C]

/-- The loop of `stringifyTable` over `pairs`. -/
def pairsLoop : Bool → Lists → List (Key × Ref n) → Option (Lists × List Piece)
  | _, s, [] => some (s, [])
  | first, s, (k, v) :: es =>
      if k.isString then do
        let (s, text) ← f s v
        let (s, rest) ← pairsLoop false s es
        return (s, comma first ++ (.key k :: .char 0x3A :: text) ++ rest)
      else
        pairsLoop first s es

/-- The loop of `stringifyTable` over `ipairs`. -/
def ipairsLoop : Bool → Lists → List (Ref n) → Option (Lists × List Piece)
  | _, s, [] => some (s, [])
  | first, s, v :: vs => do
      let (s, text) ← f s v
      let (s, rest) ← ipairsLoop false s vs
      return (s, comma first ++ text ++ rest)

/-- The entries of a table: without `t[1]` it is treated as an object. -/
def stringifyEntries (es : List (Key × Ref n)) (s : Lists) : Option (Lists × List Piece) :=
  match get es (index 1) with
  | none => (pairsLoop f true s es).map fun r => (r.1, .char 0x7B :: (r.2 ++ [.char 0x7D]))
  | some _ =>
      (ipairsLoop f true s (items es)).map fun r => (r.1, .char 0x5B :: (r.2 ++ [.char 0x5D]))

def stringifyTable (g : Tables n) (s : Lists) (t : Fin n) : Option (Lists × List Piece) := do
  let foundMatch ← findInList s.cells t s.cells.length s.baseList
  if foundMatch = none then
    let cells ← addToList t s.cells.length s.baseList s.cells
    let (s, text) ← stringifyEntries f (g t) { s with cells := cells }
    let cells ← removeLastFromList s.cells.length s.baseList none s.cells
    return ({ s with cells := cells }, text)
  else
    return (s, [.RECURSION])

/-- `stringify`, with a bound for the depth of its calls. -/
def stringify (g : Tables n) : Nat → Lists → Ref n → Option (Lists × List Piece)
  | _, s, .leaf v => some (s, [.leaf v])
  | 0, _, .table _ => none
  | fuel + 1, s, .table t => stringifyTable (stringify g fuel) g s t

end Stringify

/-! ## What should be written -/

section Serial

variable {n : Nat}

/-- The text of a table, from those of the values of its entries. -/
def tableText (es : List (Key × List Piece)) : List Piece :=
  match get es (index 1) with
  | none =>
      .char 0x7B :: ([.char 0x2C].intercalate
        ((members es).map fun e => .key e.1 :: .char 0x3A :: e.2) ++ [.char 0x7D])
  | some _ => .char 0x5B :: ([.char 0x2C].intercalate (items es) ++ [.char 0x5D])

/-- A value below the tables `anc` that are being written: these are marked, and
everything else is written in full. -/
def serial (g : Tables n) (anc : Finset (Fin n)) : Ref n → List Piece
  | .leaf v => [.leaf v]
  | .table t =>
      if t ∈ anc then [.RECURSION]
      else tableText (onValues (serial g (insert t anc)) (g t))
termination_by (ancᶜ).card
decreasing_by
  apply Finset.card_lt_card
  rw [Finset.compl_insert]
  exact Finset.erase_ssubset (Finset.mem_compl.mpr ‹_›)

/-- **What a call should do.**  It returns, has written the value, and the list is empty
again. -/
def Serialises (g : Tables n) (cells : Cells) (v : Ref n) : Prop :=
  ∃ fuel s, stringify g fuel ⟨cells, none⟩ v = some (s, serial g ∅ v) ∧ s.baseList = none

/-- The values of a table that are written. -/
def followed {α : Type} (es : List (Key × α)) : List α :=
  match get es (index 1) with
  | none => (members es).map Prod.snd
  | some _ => items es

/-- A table is written when another one is. -/
def Follows (g : Tables n) (t u : Fin n) : Prop := Ref.table u ∈ followed (g t)

/-- No table that is reached from the value is reached from itself. -/
def Acyclic (g : Tables n) (v : Ref n) : Prop :=
  ∀ t, v = .table t → ∀ u, Relation.ReflTransGen (Follows g) t u →
    ¬Relation.TransGen (Follows g) u u

end Serial

end LuaJson.Graph
