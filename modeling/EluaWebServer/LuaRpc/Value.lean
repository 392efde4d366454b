import Mathlib.Data.List.Basic

/-!
# Lua values and what they unfold to

A Lua value is an immediate value or a reference to a table in the heap.  A
table keeps its entries in the order of `lua_next`, and can only be built with
keys and values that Lua allows.  What is sent is not the value but the tree
that it unfolds to.
-/

namespace LuaRpc

/-- What the interpreter knows of its numbers. -/
class LuaNumber (N : Type) where
  /-- `luai_numeq`. -/
  eq : N → N → Bool
  /-- `lua_number2str`. -/
  str : N → List UInt8

/-- A `Helper`: an object of its own, the handle it belongs to, and the names
of its parents and of itself. -/
structure Helper where
  id : Nat
  handle : Nat
  parents : List (List UInt8)
  funcname : List UInt8
  deriving DecidableEq, Repr

/-- The values of Lua, with the types of a Lua that has read-only tables. -/
inductive Val (N F : Type) where
  | nil
  | boolean (b : Bool)
  | number (x : N)
  | string (s : List UInt8)
  | table (ref : Nat)
  | function (f : F)
  | helper (h : Helper)
  | userdata (id : Nat)
  | thread (id : Nat)
  | lightuserdata (id : Nat)
  | rotable (id : Nat)
  | lightfunction (id : Nat)

section

variable {N F : Type} [LuaNumber N] [DecidableEq F]

/-- `luaO_rawequalObj`. -/
def rawEq : Val N F → Val N F → Bool
  | .nil, .nil => true
  | .boolean a, .boolean b => a == b
  | .number x, .number y => LuaNumber.eq x y
  | .string s, .string t => s == t
  | .table a, .table b => a == b
  | .function f, .function g => f == g
  | .helper a, .helper b => a == b
  | .userdata a, .userdata b => a == b
  | .thread a, .thread b => a == b
  | .lightuserdata a, .lightuserdata b => a == b
  | .rotable a, .rotable b => a == b
  | .lightfunction a, .lightfunction b => a == b
  | _, _ => false

def Val.isNil : Val N F → Bool
  | .nil => true
  | _ => false

/-- A value that can be a key: neither nil nor NaN. -/
def Val.isKey : Val N F → Bool
  | .nil => false
  | .number x => LuaNumber.eq x x
  | _ => true

theorem rawEq_self {k : Val N F} (h : k.isKey = true) : rawEq k k = true := by
  cases k with
  | nil => cases h
  | number x => exact h
  | _ => exact beq_self_eq_true _

/-! ## Tables -/

/-- The entries after an assignment to a key. -/
def setEntries (entries : List (Val N F × Val N F)) (k v : Val N F) :
    List (Val N F × Val N F) :=
  if v.isNil then entries.filter fun e => !rawEq e.1 k
  else if entries.any fun e => rawEq e.1 k then
    entries.map fun e => if rawEq e.1 k then (e.1, v) else e
  else entries ++ [(k, v)]

variable (N F) in
/-- A table, in the order of `lua_next`. -/
structure Table where
  entries : List (Val N F × Val N F)
  keys : ∀ e ∈ entries, e.1.isKey = true
  values : ∀ e ∈ entries, e.2.isNil = false
  distinct : entries.Pairwise fun a b => rawEq a.1 b.1 = false

/-- `lua_newtable`. -/
def Table.empty : Table N F := ⟨[], by simp, by simp, .nil⟩

/-- `lua_next`: the entry after a key, or the first one after nil.  A key that
is not in the table is an error. -/
def Table.next (t : Table N F) (k : Val N F) : Option (Option (Val N F × Val N F)) :=
  if k.isNil then some t.entries.head?
  else
    match t.entries.dropWhile fun e => !rawEq e.1 k with
    | [] => none
    | _ :: later => some later.head?

theorem setEntries_keys {entries : List (Val N F × Val N F)} {k v : Val N F}
    (h : ∀ e ∈ entries, e.1.isKey = true) (hk : k.isKey = true) :
    ∀ e ∈ setEntries entries k v, e.1.isKey = true := by
  intro e he
  unfold setEntries at he
  split at he
  · exact h e (List.mem_of_mem_filter he)
  · split at he
    · obtain ⟨e', he', rfl⟩ := List.mem_map.mp he
      split
      · exact h e' he'
      · exact h e' he'
    · rcases List.mem_append.mp he with he | he
      · exact h e he
      · rw [List.mem_singleton.mp he]
        exact hk

theorem setEntries_values {entries : List (Val N F × Val N F)} {k v : Val N F}
    (h : ∀ e ∈ entries, e.2.isNil = false) :
    ∀ e ∈ setEntries entries k v, e.2.isNil = false := by
  intro e he
  unfold setEntries at he
  split at he
  · exact h e (List.mem_of_mem_filter he)
  · rename_i hv
    rw [Bool.not_eq_true] at hv
    split at he
    · obtain ⟨e', he', rfl⟩ := List.mem_map.mp he
      split
      · exact hv
      · exact h e' he'
    · rcases List.mem_append.mp he with he | he
      · exact h e he
      · rw [List.mem_singleton.mp he]
        exact hv

theorem setEntries_distinct {entries : List (Val N F × Val N F)} {k v : Val N F}
    (h : entries.Pairwise fun a b => rawEq a.1 b.1 = false) :
    (setEntries entries k v).Pairwise fun a b => rawEq a.1 b.1 = false := by
  unfold setEntries
  split
  · exact h.filter _
  · split
    · refine List.pairwise_map.mpr (h.imp ?_)
      intro a b hab
      -- the keys stay
      split <;> split <;> exact hab
    · rename_i hany
      refine List.pairwise_append.mpr ⟨h, List.pairwise_singleton _ _, ?_⟩
      intro e he e' he'
      rw [List.mem_singleton.mp he']
      by_contra hne
      rw [Bool.not_eq_false] at hne
      exact hany (List.any_eq_true.mpr ⟨e, he, hne⟩)

/-- `lua_rawset`: nil and NaN are no keys. -/
def Table.rawset (t : Table N F) (k v : Val N F) : Option (Table N F) :=
  if hk : k.isKey = true then
    some ⟨setEntries t.entries k v, setEntries_keys t.keys hk, setEntries_values t.values,
      setEntries_distinct t.distinct⟩
  else none

/-- A new key goes to the end. -/
theorem rawset_new {t : Table N F} {k v : Val N F} (hk : k.isKey = true)
    (hv : v.isNil = false) (hnew : ∀ e ∈ t.entries, rawEq e.1 k = false) :
    ∃ t', t.rawset k v = some t' ∧ t'.entries = t.entries ++ [(k, v)] := by
  refine ⟨_, dif_pos hk, ?_⟩
  have hany : ¬ (t.entries.any fun e => rawEq e.1 k) = true := by
    rw [List.any_eq_true]
    rintro ⟨e, he, heq⟩
    rw [hnew e he] at heq
    cases heq
  change setEntries t.entries k v = _
  rw [setEntries, hv, if_neg Bool.false_ne_true, if_neg hany]

theorem next_nil (t : Table N F) : t.next .nil = some t.entries.head? := rfl

/-- After the key of an entry comes the next entry. -/
theorem next_key {t : Table N F} {before later : List (Val N F × Val N F)}
    {e : Val N F × Val N F} (h : t.entries = before ++ e :: later) :
    t.next e.1 = some later.head? := by
  have hmem : e ∈ t.entries := by
    rw [h]
    exact List.mem_append_right _ List.mem_cons_self
  have hkey := t.keys e hmem
  have hnil : e.1.isNil = false := by
    cases hk : e.1 with
    | nil =>
        rw [hk] at hkey
        cases hkey
    | _ => rfl
  have hdistinct := t.distinct
  rw [h, List.pairwise_append] at hdistinct
  have hbefore : ∀ a ∈ before, (!rawEq a.1 e.1) = true := by
    intro a ha
    rw [hdistinct.2.2 a ha e List.mem_cons_self]
    rfl
  have hstop : ¬ (!rawEq e.1 e.1) = true := by
    rw [rawEq_self hkey]
    decide
  have hdrop : t.entries.dropWhile (fun a => !rawEq a.1 e.1) = e :: later := by
    rw [h, List.dropWhile_append_of_pos hbefore]
    exact List.dropWhile_cons_of_neg (p := fun a : Val N F × Val N F => !rawEq a.1 e.1) hstop
  rw [Table.next, hnil, if_neg Bool.false_ne_true, hdrop]

variable (N F) in
/-- The tables that exist. -/
abbrev Heap := List (Table N F)

end

/-! ## Trees -/

variable {N : Type}

mutual

/-- What a value is without its references.  Functions are their code, and
helpers the names that lead to what they stand for. -/
inductive Tree (N : Type) where
  | nil
  | boolean (b : Bool)
  | number (x : N)
  | string (s : List UInt8)
  | table (entries : Entries N)
  | function (code : List UInt8)
  | remote (path : List UInt8)

/-- The entries of a table. -/
inductive Entries (N : Type) where
  | nil
  | cons (key value : Tree N) (rest : Entries N)

end

mutual

/-- Every number and every string in a tree. -/
def Tree.All (num : N → Prop) (str : List UInt8 → Prop) : Tree N → Prop
  | .nil => True
  | .boolean _ => True
  | .number x => num x
  | .string s => str s
  | .table es => es.All num str
  | .function code => str code
  | .remote path => str path

def Entries.All (num : N → Prop) (str : List UInt8 → Prop) : Entries N → Prop
  | .nil => True
  | .cons k v rest => k.All num str ∧ v.All num str ∧ rest.All num str

end

mutual

theorem Tree.All.imp {num num' : N → Prop} {str str' : List UInt8 → Prop}
    (hnum : ∀ x, num x → num' x) (hstr : ∀ s, str s → str' s) :
    ∀ t : Tree N, t.All num str → t.All num' str'
  | .nil, _ => trivial
  | .boolean _, _ => trivial
  | .number x, h => hnum x h
  | .string s, h => hstr s h
  | .table es, h => Entries.All.imp hnum hstr es h
  | .function code, h => hstr code h
  | .remote path, h => hstr path h

theorem Entries.All.imp {num num' : N → Prop} {str str' : List UInt8 → Prop}
    (hnum : ∀ x, num x → num' x) (hstr : ∀ s, str s → str' s) :
    ∀ es : Entries N, es.All num str → es.All num' str'
  | .nil, _ => trivial
  | .cons k v rest, ⟨hk, hv, hrest⟩ =>
      ⟨Tree.All.imp hnum hstr k hk, Tree.All.imp hnum hstr v hv, Entries.All.imp hnum hstr rest hrest⟩

end

mutual

/-- Neither functions nor helpers are in the tree. -/
def Tree.Plain : Tree N → Prop
  | .table es => es.Plain
  | .function _ => False
  | .remote _ => False
  | _ => True

def Entries.Plain : Entries N → Prop
  | .nil => True
  | .cons k v rest => k.Plain ∧ v.Plain ∧ rest.Plain

end

def Entries.keys : Entries N → List (Tree N)
  | .nil => []
  | .cons k _ rest => k :: rest.keys

def Entries.append : Entries N → Entries N → Entries N
  | .nil, es => es
  | .cons k v rest, es => .cons k v (rest.append es)

theorem append_nil : ∀ es : Entries N, es.append .nil = es
  | .nil => rfl
  | .cons k v rest => congrArg (Entries.cons k v) (append_nil rest)

theorem append_cons (k v : Tree N) (rest : Entries N) :
    ∀ es : Entries N, (es.append (.cons k v .nil)).append rest = es.append (.cons k v rest)
  | .nil => rfl
  | .cons k' v' es => congrArg (Entries.cons k' v') (append_cons k v rest es)

theorem keys_append (es' : Entries N) :
    ∀ es : Entries N, (es.append es').keys = es.keys ++ es'.keys
  | .nil => rfl
  | .cons k _ es => congrArg (k :: ·) (keys_append es' es)

variable [LuaNumber N]

/-- Trees of values that are the same key.  Tables never are. -/
def Tree.sameKey : Tree N → Tree N → Bool
  | .nil, .nil => true
  | .boolean a, .boolean b => a == b
  | .number x, .number y => LuaNumber.eq x y
  | .string s, .string t => s == t
  | _, _ => false

def Tree.isNil : Tree N → Bool
  | .nil => true
  | _ => false

def Tree.isKey : Tree N → Bool
  | .nil => false
  | .number x => LuaNumber.eq x x
  | _ => true

mutual

/-- The tables in a tree have entries that a table can have. -/
def Tree.WellKeyed : Tree N → Prop
  | .table es => es.WellKeyed
  | _ => True

def Entries.WellKeyed : Entries N → Prop
  | .nil => True
  | .cons k v rest =>
      k.isKey = true ∧ v.isNil = false ∧ (∀ k' ∈ rest.keys, k.sameKey k' = false) ∧
        k.WellKeyed ∧ v.WellKeyed ∧ rest.WellKeyed

end

end LuaRpc
