import EluaWebServer.Lib.Links

/-!
# Lua tables

A table keeps its elements in an array part and in a hash part (ltable.c).  The
nodes of the hash part are linked into chains: an element that is not in its
main position is in the chain that begins there.  When no free node is left the
table is resized in place.  `none` is the value nil, and NULL.
-/

namespace LuaTable

/-- `MAXBITS`, for an `int` of 32 bits. -/
def MAXBITS : Nat := 26

def MAXASIZE : Nat := 2 ^ MAXBITS

def MAX_INT : Nat := 2 ^ 31 - 1

/-- What becomes of the hash of a key: `hashpow2` or `hashmod`. -/
inductive Hash where
  | pow2 (h : Nat)
  | mod (h : Nat)

/-- The index of the main position in a vector of `2 ^ lsizenode` nodes. -/
def Hash.position (lsizenode : Nat) : Hash → Nat
  | .pow2 h => h &&& (2 ^ lsizenode - 1)
  | .mod h => h % ((2 ^ lsizenode - 1) ||| 1)

/-- The values other than nil that a table is indexed with, up to `luaO_rawequalObj`. -/
class Key (α : Type) where
  hash : α → Hash
  /-- The `int` that a number is equal to. -/
  index : α → Option Int
  /-- `cast_num`. -/
  ofInt : Int → α
  isNaN : α → Bool
  index_ofInt : ∀ k : Int, -(2 ^ 31) ≤ k → k < 2 ^ 31 → index (ofInt k) = some k
  ofInt_index : ∀ {a : α} {k : Int}, index a = some k → ofInt k = a
  not_isNaN_of_index : ∀ {a : α} {k : Int}, index a = some k → isNaN a = false

/-- `luaG_runerror`.  A `fault` is what the code does not provide for: a failed assertion, a chain
that does not hold what is looked for in it, or a resize within a resize of the same table. -/
inductive Error where
  | indexNil
  | indexNaN
  | overflow
  | invalidKey
  | fault
  deriving DecidableEq

def Error.message : Error → Option String
  | .indexNil => some "table index is nil"
  | .indexNaN => some "table index is NaN"
  | .overflow => some "table overflow"
  | .invalidKey => some "invalid key to 'next'"
  | .fault => none

@[ext]
structure Node (α β : Type) where
  key : Option α
  val : Option β
  next : Option Nat

def Node.empty {α β : Type} : Node α β := ⟨none, none, none⟩

@[ext]
structure Table (α β : Type) where
  array : Nat → Option β
  sizearray : Nat
  node : Nat → Node α β
  lsizenode : Nat
  /-- `node == dummynode` -/
  dummy : Bool
  lastfree : Nat

/-- A pointer to the value of an element. -/
inductive Slot where
  | array (i : Nat)
  | node (i : Nat)
  deriving DecidableEq

variable {α β : Type}

namespace Table

def sizenode (t : Table α β) : Nat := 2 ^ t.lsizenode

def setNode (t : Table α β) (i : Nat) (n : Node α β) : Table α β :=
  { t with node := Function.update t.node i n }

def setArray (t : Table α β) (i : Nat) (v : Option β) : Table α β :=
  { t with array := Function.update t.array i v }

def next (t : Table α β) (i : Nat) : Option Nat := (t.node i).next

def value (t : Table α β) : Slot → Option β
  | .array i => t.array i
  | .node i => (t.node i).val

/-- `setobj2t` -/
def assign (t : Table α β) (s : Slot) (v : Option β) : Table α β :=
  match s with
  | .array i => t.setArray i v
  | .node i => t.setNode i { t.node i with val := v }

end Table

/-! ## Searching -/

section Search

variable [Key α] [DecidableEq α]

/-- `mainposition`; a node that has no key is not asked for it. -/
def mainposition (t : Table α β) : Option α → Nat
  | none => 0
  | some k => (Key.hash k).position t.lsizenode

/-- `luaO_rawequalObj`; NaN is equal to nothing. -/
def rawequal (key : Option α) (k : α) : Bool := decide (key = some k) && !Key.isNaN k

/-- The node of a key, in the chain of its main position. -/
def findNode (t : Table α β) (k : α) : Option Nat :=
  Links.seek t.next (fun i => rawequal (t.node i).key k) t.sizenode (mainposition t (some k))

def luaHGetnum (t : Table α β) (key : Int) : Option Slot :=
  if 1 ≤ key ∧ key ≤ t.sizearray then some (.array (key.toNat - 1))
  else (findNode t (Key.ofInt key)).map .node

/-- `luaH_get`.  The search for a string, and for any other value, is that of its chain. -/
def luaHGet (t : Table α β) : Option α → Option Slot
  | none => none
  | some k =>
      match Key.index k with
      | some i => luaHGetnum t i
      | none => (findNode t k).map .node

/-- What a script reads. -/
def lookup (t : Table α β) (key : Option α) : Option β := (luaHGet t key).bind t.value

end Search

/-! ## Free nodes -/

/-- The last node below `p` without a key. -/
def freeBelow (node : Nat → Node α β) : Nat → Option Nat
  | 0 => none
  | p + 1 => if (node p).key.isNone then some p else freeBelow node p

def getfreepos (t : Table α β) : Table α β × Option Nat :=
  match freeBelow t.node t.lastfree with
  | some n => ({ t with lastfree := n }, some n)
  | none => ({ t with lastfree := 0 }, none)

def findPrevNode (t : Table α β) (mp next : Nat) : Option Nat :=
  Links.seek t.next (fun i => decide (t.next i = some next)) t.sizenode mp

/-! ## Sizes -/

def log_2 : List Nat := [
  0,1,2,2,3,3,3,3,4,4,4,4,4,4,4,4,5,5,5,5,5,5,5,5,5,5,5,5,5,5,5,5,
  6,6,6,6,6,6,6,6,6,6,6,6,6,6,6,6,6,6,6,6,6,6,6,6,6,6,6,6,6,6,6,6,
  7,7,7,7,7,7,7,7,7,7,7,7,7,7,7,7,7,7,7,7,7,7,7,7,7,7,7,7,7,7,7,7,
  7,7,7,7,7,7,7,7,7,7,7,7,7,7,7,7,7,7,7,7,7,7,7,7,7,7,7,7,7,7,7,7,
  8,8,8,8,8,8,8,8,8,8,8,8,8,8,8,8,8,8,8,8,8,8,8,8,8,8,8,8,8,8,8,8,
  8,8,8,8,8,8,8,8,8,8,8,8,8,8,8,8,8,8,8,8,8,8,8,8,8,8,8,8,8,8,8,8,
  8,8,8,8,8,8,8,8,8,8,8,8,8,8,8,8,8,8,8,8,8,8,8,8,8,8,8,8,8,8,8,8,
  8,8,8,8,8,8,8,8,8,8,8,8,8,8,8,8,8,8,8,8,8,8,8,8,8,8,8,8,8,8,8,8]

/-- `luaO_log2`, which is -1 for 0; the sum of the rounds is kept apart from the -1. -/
def luaOLog2 (x : Nat) : Int :=
  if x < 256 then -1 + (log_2.getD x 0 : Int) else luaOLog2 (x >>> 8) + 8
  termination_by x
  decreasing_by
    rw [Nat.shiftRight_eq_div_pow]
    omega

def ceillog2 (x : Nat) : Nat := (luaOLog2 (x - 1) + 1).toNat

/-- The loop of `computesizes`, from `i` on.  `nums` has `MAXBITS + 1` entries. -/
def computesizesLoop (nums : Nat → Nat) (narray : Nat) : Nat → Nat → Nat → Nat × Nat →
    Option (Nat × Nat)
  | 0, _, _, _ => none
  | fuel + 1, i, a, (n, na) =>
      if 2 ^ i / 2 < narray then
        let a := a + nums i
        let best := if 0 < nums i ∧ 2 ^ i / 2 < a then (2 ^ i, a) else (n, na)
        if a = narray then some best else computesizesLoop nums narray fuel (i + 1) a best
      else some (n, na)

/-- `computesizes`: the size of the array part, and how many elements go to it. -/
def computesizes (nums : Nat → Nat) (narray : Nat) : Option (Nat × Nat) :=
  computesizesLoop nums narray (MAXBITS + 2) 0 0 (0, 0)

/-- Counts `key` in its slice, if it is an array index. -/
def countint [Key α] (nums : Nat → Nat) (key : Option α) : (Nat → Nat) × Nat :=
  match key.bind Key.index with
  | some k =>
      if 0 < k ∧ k ≤ MAXASIZE then
        (Function.update nums (ceillog2 k.toNat) (nums (ceillog2 k.toNat) + 1), 1)
      else (nums, 0)
  | none => (nums, 0)

/-- The elements `array[i-1]`, .., `array[lim-1]` that are not nil. -/
def countSlice (array : Nat → Option β) (i lim : Nat) : Nat :=
  (List.range' i (lim + 1 - i)).countP fun j => (array (j - 1)).isSome

/-- The slices of `numusearray` from `lg` on, where `i` is the first index of the next one. -/
def numusearrayLoop (t : Table α β) : Nat → Nat → Nat → (Nat → Nat) × Nat → (Nat → Nat) × Nat
  | 0, _, _, acc => acc
  | fuel + 1, lg, i, (nums, ause) =>
      if t.sizearray < 2 ^ lg ∧ t.sizearray < i then (nums, ause)
      else
        let lim := min (2 ^ lg) t.sizearray
        let lc := countSlice t.array i lim
        numusearrayLoop t fuel (lg + 1) (lim + 1) (Function.update nums lg (nums lg + lc), ause + lc)

def numusearray (t : Table α β) (nums : Nat → Nat) : (Nat → Nat) × Nat :=
  numusearrayLoop t (MAXBITS + 1) 0 1 (nums, 0)

/-- One node of `numusehash`: the counts, those of them that are array indices, and all. -/
def countNode [Key α] (t : Table α β) (acc : (Nat → Nat) × Nat × Nat) (i : Nat) :
    (Nat → Nat) × Nat × Nat :=
  if (t.node i).val.isSome then
    let (nums, c) := countint acc.1 (t.node i).key
    (nums, acc.2.1 + c, acc.2.2 + 1)
  else acc

/-- `numusehash`, from the last node down. -/
def numusehash [Key α] (t : Table α β) (nums : Nat → Nat) : (Nat → Nat) × Nat × Nat :=
  (List.range t.sizenode).reverse.foldl (countNode t) (nums, 0, 0)

/-! ## Resizing -/

def setarrayvector (t : Table α β) (size : Nat) : Table α β :=
  { t with
    array := fun i => if i < t.sizearray ∧ i < size then t.array i else none
    sizearray := size }

def resizenodevector (t : Table α β) (oldsize newsize : Nat) : Except Error (Table α β) :=
  if newsize = 0 then
    .ok { t with node := fun _ => Node.empty, dummy := true, lsizenode := 0, lastfree := 0 }
  else
    let lsize := ceillog2 newsize
    if MAXBITS < lsize then .error .overflow
    else
      let newsize := 2 ^ lsize
      let oldsize := if t.dummy then 0 else oldsize
      .ok { t with
        node := fun i => if i < oldsize ∧ i < newsize then t.node i else Node.empty
        dummy := false
        lsizenode := lsize
        lastfree := newsize }

section Resize

variable [Key α] [DecidableEq α]

/-- Moves a node to its place in the chains; the result is 0 when the node has got an element that
is to be moved in turn. -/
def moveNode (t : Table α β) (node : Nat) : Table α β × Bool :=
  let mp := mainposition t (t.node node).key
  if mp = node then (t, true)
  else if (findPrevNode t mp node).isSome then (t, true)
  else if (t.node mp).val.isSome || t.dummy then
    let othermp := mainposition t (t.node mp).key
    if othermp ≠ mp then
      let tmp := t.node node
      match findPrevNode t othermp mp with
      | some prev =>
          let t := t.setNode prev { t.node prev with next := some node }
          let t := t.setNode node (t.node mp)
          (t.setNode mp tmp, true)
      | none =>
          let t := t.setNode node (t.node mp)
          (t.setNode mp tmp, false)
    else
      let t := t.setNode node { t.node node with next := t.next mp }
      (t.setNode mp { t.node mp with next := some node }, true)
  else
    let t := t.setNode mp (t.node node)
    (t.setNode node Node.empty, true)

/-- `while (move_node(L, t, curr) == 0);` -/
def moveNodes (curr : Nat) : Nat → Table α β → Option (Table α β)
  | 0, _ => none
  | fuel + 1, t =>
      match moveNode t curr with
      | (t, true) => some t
      | (t, false) => moveNodes curr fuel t

/-- The last loop of `resize_hashpart`, for one node. -/
def rechain (t : Table α β) (i : Nat) : Except Error (Table α β) :=
  if (t.node i).val.isSome then
    match moveNodes i (t.sizenode + 1) t with
    | some t => .ok t
    | none => .error .fault
  else .ok t

omit [DecidableEq α] in
/-- `move_number`, when it moves; the index is an `int`. -/
def moveNumber (t : Table α β) (node : Nat) : Option (Table α β) :=
  match (t.node node).key.bind Key.index with
  | some key =>
      if 1 ≤ key ∧ key ≤ t.sizearray then
        let t' := t.setArray (key.toNat - 1) (t.node node).val
        some (t'.setNode node { t.node node with key := none, val := none })
      else none
  | none => none

omit [DecidableEq α] in
/-- The first loop of `resize_hashpart`, for one node: the chain is broken, and the element goes
to the array part or, from a place past the new end, to a free place. -/
def compact (nhsize : Nat) (t : Table α β) (i : Nat) : Except Error (Table α β) :=
  let t := t.setNode i { t.node i with next := none }
  if (t.node i).val.isNone then .ok (t.setNode i { t.node i with key := none })
  else
    match moveNumber t i with
    | some t => .ok t
    | none =>
        if nhsize ≤ i then
          match getfreepos t with
          | (t, some n) => .ok (t.setNode n (t.node i))
          | (_, none) => .error .fault
        else .ok t

def resizeHashpart (t : Table α β) (nhsize : Nat) : Except Error (Table α β) :=
  let oldhsize := if t.dummy then 0 else 2 ^ t.lsizenode
  let lsize := if 0 < nhsize then ceillog2 nhsize else 0
  if MAXBITS < lsize then .error .overflow
  else do
    let nhsize := 2 ^ lsize
    let t ← (if oldhsize < nhsize then resizenodevector t oldhsize nhsize
      else .ok { t with lsizenode := lsize, lastfree := nhsize })
    let t ← (List.range oldhsize).foldlM (compact nhsize) t
    let t ← (if nhsize < oldhsize then resizenodevector t oldhsize nhsize else .ok t)
    (List.range nhsize).foldlM rechain t

/-! The functions from here on call each other; `new` is the `newkey` that they call. -/

variable (new : Table α β → α → Except Error (Table α β × Slot))

def luaHSetnum (t : Table α β) (key : Int) : Except Error (Table α β × Slot) :=
  match luaHGetnum t key with
  | some s => .ok (t, s)
  | none => new t (Key.ofInt key)

def luaHSet (t : Table α β) (key : Option α) : Except Error (Table α β × Slot) :=
  match luaHGet t key with
  | some s => .ok (t, s)
  | none =>
      match key with
      | none => .error .indexNil
      | some k => if Key.isNaN k then .error .indexNaN else new t k

/-- An element of the vanishing slice of the array. -/
def reinsert (t : Table α β) (i : Nat) : Except Error (Table α β) :=
  match t.array i with
  | some v => do
      let (t, s) ← luaHSetnum new t (i + 1)
      .ok (t.assign s (some v))
  | none => .ok t

def resize (t : Table α β) (nasize nhsize : Nat) : Except Error (Table α β) := do
  let oldasize := t.sizearray
  let t := if oldasize < nasize then setarrayvector t nasize else t
  let t ← resizeHashpart t nhsize
  if nasize < oldasize then
    let t := { t with sizearray := nasize }
    let t ← (List.range' nasize (oldasize - nasize)).foldlM (reinsert new) t
    .ok { t with array := fun i => if i < nasize then t.array i else none }
  else .ok t

def luaHResizearray (t : Table α β) (nasize : Nat) : Except Error (Table α β) :=
  resize new t nasize (if t.dummy then 0 else t.sizenode)

def rehash (t : Table α β) (ek : α) : Except Error (Table α β) :=
  let (nums, arrayUse) := numusearray t fun _ => 0
  let (nums, hashIndices, hashUse) := numusehash t nums
  let (nums, extra) := countint nums (some ek)
  let totaluse := arrayUse + hashUse + 1
  match computesizes nums (arrayUse + hashIndices + extra) with
  | some (nasize, na) => resize new t nasize (totaluse - na)
  | none => .error .fault

/-- `newkey`; `grow` is what it does when there is no free node. -/
def insertKey (grow : Table α β → α → Except Error (Table α β × Slot)) (t : Table α β) (key : α) :
    Except Error (Table α β × Slot) :=
  let mp := mainposition t (some key)
  if (t.node mp).val.isSome || t.dummy then
    match getfreepos t with
    | (t, none) => grow t key
    | (t, some n) =>
        let othern := mainposition t (t.node mp).key
        if othern ≠ mp then
          match findPrevNode t othern mp with
          | none => .error .fault
          | some prev =>
              let t := t.setNode prev { t.node prev with next := some n }
              let t := t.setNode n (t.node mp)
              let t := t.setNode mp { t.node mp with next := none, val := none }
              .ok (t.setNode mp { t.node mp with key := some key }, .node mp)
        else
          let t := t.setNode n { t.node n with next := t.next mp }
          let t := t.setNode mp { t.node mp with next := some n }
          .ok (t.setNode n { t.node n with key := some key }, .node n)
  else .ok (t.setNode mp { t.node mp with key := some key }, .node mp)

end Resize

/-- `newkey`, where at most `depth` calls are under way at the same time. -/
def newkey [Key α] [DecidableEq α] : Nat → Table α β → α → Except Error (Table α β × Slot)
  | 0 => fun _ _ => .error .fault
  | depth + 1 => insertKey fun t key => do
      let t ← rehash (newkey depth) t key
      luaHSet (newkey depth) t (some key)

def luaHNew (narray nhash : Nat) : Except Error (Table α β) :=
  let t : Table α β := ⟨fun _ => none, 0, fun _ => Node.empty, 0, true, 0⟩
  resizenodevector (setarrayvector t narray) 0 nhash

end LuaTable
