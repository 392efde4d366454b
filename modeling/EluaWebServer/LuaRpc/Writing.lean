import EluaWebServer.LuaRpc.Variable

/-!
# What is written

The bytes of a tree, and that they are what `write_variable` writes of a value
that unfolds to the tree.
-/

namespace LuaRpc

open Bytes

/-- The names that lead to what a helper stands for, with dots. -/
def Helper.path (h : Helper) : List UInt8 :=
  (h.parents.flatMap fun name => name ++ [dot]) ++ h.funcname

/-- There are less than two names, or the first and the last one have the same
length. -/
def SameEnds (names : List (List UInt8)) : Prop :=
  names.length < 2 ∨ names.head?.map List.length = names.getLast?.map List.length

instance (names : List (List UInt8)) : Decidable (SameEnds names) :=
  inferInstanceAs (Decidable (_ ∨ _))

/-- The length of the path is announced: the name of the last parent is counted
twice, and that of the first one is not. -/
def Helper.Announced (h : Helper) : Prop := h.parents.length < 256 ∧ SameEnds h.parents

variable {N F : Type} [LuaNumber N] [DecidableEq F]

mutual

/-- A value unfolds to a tree, all of whose tables satisfy `P`. -/
def UnfoldsIn (l : Link N F) (P : Nat → Prop) (heap : Heap N F) (v : Val N F) : Tree N → Prop
  | .nil => v = .nil
  | .boolean b => v = .boolean b
  | .number x => v = .number x
  | .string s => v = .string s
  | .table es => ∃ ref t, v = .table ref ∧ P ref ∧ heap[ref]? = some t ∧
      EntriesUnfoldIn l P heap t.entries es
  | .function code => ∃ f, v = .function f ∧ l.dump f = some code
  | .remote path => ∃ h, v = .helper h ∧ l.handle = some h.handle ∧ h.path = path ∧ h.Announced

def EntriesUnfoldIn (l : Link N F) (P : Nat → Prop) (heap : Heap N F)
    (entries : List (Val N F × Val N F)) : Entries N → Prop
  | .nil => entries = []
  | .cons k v rest => ∃ key value later, entries = (key, value) :: later ∧
      UnfoldsIn l P heap key k ∧ UnfoldsIn l P heap value v ∧
      EntriesUnfoldIn l P heap later rest

end

/-- A value unfolds to a tree. -/
def Unfolds (l : Link N F) (heap : Heap N F) (v : Val N F) (t : Tree N) : Prop :=
  UnfoldsIn l (fun _ => True) heap v t

/-! ## The bytes of a tree -/

/-- What is written of a number, if it is. -/
def Link.number (l : Link N F) (x : N) : List UInt8 :=
  match l.writeNumber x with
  | .ok bytes => bytes
  | .error _ => []

/-- A length and as many bytes. -/
def Link.text (l : Link N F) (s : List UInt8) : List UInt8 := l.writeU32 s.length ++ s

mutual

def Link.encode (l : Link N F) : Tree N → List UInt8
  | .nil => [RpcType.nil.toByte]
  | .boolean b => [RpcType.boolean.toByte, b.toUInt8]
  | .number x => RpcType.number.toByte :: l.number x
  | .string s => RpcType.string.toByte :: l.text s
  | .table es => RpcType.table.toByte :: (l.encodeEntries es ++ [RpcType.tableEnd.toByte])
  | .function code => RpcType.function.toByte ::
      (RpcType.string.toByte :: l.text code ++ [RpcType.functionEnd.toByte])
  | .remote path => RpcType.remote.toByte :: l.text path

def Link.encodeEntries (l : Link N F) : Entries N → List UInt8
  | .nil => []
  | .cons k v rest => l.encode k ++ l.encode v ++ l.encodeEntries rest

end

mutual

/-- How deep the recursion and the loops get. -/
def Tree.size : Tree N → Nat
  | .table es => es.size + 1
  | .function _ => 4
  | _ => 1

def Entries.size : Entries N → Nat
  | .nil => 2
  | .cons k v rest => k.size + v.size + rest.size + 1

end

/-- The number has bytes, and an `int` counts the bytes of the string. -/
def Link.Writes (l : Link N F) (t : Tree N) : Prop :=
  t.All (fun x => ∃ bytes, l.writeNumber x = .ok bytes) fun s => s.length < 2 ^ 31

theorem writeNumber_eq {N F : Type} {l : Link N F} {x : N}
    (h : ∃ bytes, l.writeNumber x = .ok bytes) : l.writeNumber x = .ok (l.number x) := by
  obtain ⟨bytes, h⟩ := h
  rw [Link.number, h]

theorem writeString_eq {s : List UInt8} (h : s.length < 2 ^ 31) : writeString s = s := by
  have hmod : s.length % 2 ^ 32 = s.length := Nat.mod_eq_of_lt (by omega)
  rw [writeString, hmod, if_pos h, List.take_length]

theorem hstack_eq {h : Helper} (hn : h.parents.length < 256) : h.hstack = h.parents := by
  rw [Helper.hstack, Nat.mod_eq_of_lt hn, Nat.sub_self, List.drop_zero]

/-- The loop adds up all names but the first one. -/
theorem replayLen_eq (first : List UInt8) (rest : List (List UInt8)) {i : Nat} (len : Nat)
    (hi : i ≤ rest.length) :
    replayLen (first :: rest) i len =
      len + ((rest.take i).map fun name => name.length + 1).sum := by
  induction i generalizing len with
  | zero => rfl
  | succ i ih =>
      have hlt : i < rest.length := hi
      have hname : (first :: rest)[i + 1]?.getD [] = rest[i] := by
        rw [List.getElem?_cons_succ, List.getElem?_eq_getElem hlt, Option.getD_some]
      rw [replayLen, ih _ (Nat.le_of_lt hlt), hname, List.take_succ_eq_append_getElem hlt,
        List.map_append, List.sum_append, List.map_singleton, List.sum_singleton]
      omega

theorem length_path (h : Helper) :
    h.path.length = h.funcname.length + (h.parents.map fun name => name.length + 1).sum := by
  rw [Helper.path, List.length_append, List.length_flatMap, Nat.add_comm]
  simp only [List.length_append, List.length_singleton]

/-- What is announced of a helper with parents. -/
theorem len_add_eq {h : Helper} {first : List UInt8} {rest : List (List UInt8)}
    (hn : h.parents.length < 256) (hparents : h.parents = first :: rest) :
    h.len + first.length =
      h.path.length + ((first :: rest).getLast (List.cons_ne_nil first rest)).length := by
  have hlast : (first :: rest)[rest.length]?.getD [] =
      (first :: rest).getLast (List.cons_ne_nil first rest) := by
    rw [List.getLast_eq_getElem, List.getElem?_eq_getElem (Nat.lt_succ_self rest.length)]
    rfl
  have hlen : h.len = replayLen (first :: rest) rest.length (h.funcname.length +
      (((first :: rest).getLast (List.cons_ne_nil first rest)).length + 1)) := by
    rw [Helper.len, hstack_eq hn, hparents, ← hlast]
    rfl
  rw [hlen, replayLen_eq first rest _ (Nat.le_refl _), List.take_length, length_path, hparents,
    List.map_cons, List.sum_cons]
  omega

/-- **The announced length** is that of the path exactly if the first and the
last parent have names of the same length. -/
theorem len_eq_iff {h : Helper} (hn : h.parents.length < 256) :
    h.len = h.path.length ↔ h.Announced := by
  cases hparents : h.parents with
  | nil =>
      have hlen : h.len = h.path.length := by
        rw [Helper.len, hstack_eq hn, Helper.path, hparents]
        rfl
      refine iff_of_true hlen ⟨hn, .inl ?_⟩
      rw [hparents]
      exact Nat.zero_lt_two
  | cons first rest =>
      have hadd := len_add_eq hn hparents
      rw [Helper.Announced, and_iff_right hn, SameEnds, hparents, List.head?_cons,
        List.getLast?_eq_some_getLast (List.cons_ne_nil first rest), Option.map_some,
        Option.map_some, Option.some.injEq]
      cases rest with
      | nil =>
          rw [List.getLast_singleton] at hadd
          exact iff_of_true (by omega) (.inl Nat.one_lt_two)
      | cons second rest =>
          have hmany : ¬ (first :: second :: rest).length < 2 := by
            rw [List.length_cons, List.length_cons]
            omega
          rw [or_iff_right hmany]
          omega

theorem helperRemoteIndex_eq {N F : Type} (l : Link N F) {h : Helper} (hlen : h.Announced) :
    l.helperRemoteIndex h = l.text h.path := by
  rw [Link.helperRemoteIndex, Link.text, (len_eq_iff hlen.1).mpr hlen, hstack_eq hlen.1,
    Helper.path, List.append_assoc]

theorem size_pos {N : Type} (t : Tree N) : 0 < t.size := by
  cases t <;> simp [Tree.size]

theorem sizeEntries_pos {N : Type} (es : Entries N) : 0 < es.size := by
  cases es <;> simp [Entries.size]

/-! ## A value and its tree -/

variable (l : Link N F) (P : Nat → Prop) (heap : Heap N F)

mutual

/-- **Writing a value** writes its tree, and leaves the stack as it was. -/
theorem writeVariable_eq :
    ∀ (t : Tree N) (v : Val N F) (stack : Stack N F) (i fuel : Nat),
      UnfoldsIn l P heap v t → l.Writes t → stack.at i = some v → t.size ≤ fuel →
      writeVariable l heap fuel stack i = .ok (l.encode t, stack)
  | t, _, _, _, 0, _, _, _, hfuel => absurd hfuel (Nat.not_le.mpr (size_pos t))
  | .nil, v, stack, i, fuel + 1, h, _, hat, _ => by
      obtain rfl : v = .nil := h
      rw [writeVariable, hat]
      rfl
  | .boolean b, v, stack, i, fuel + 1, h, _, hat, _ => by
      obtain rfl : v = .boolean b := h
      rw [writeVariable, hat]
      rfl
  | .number x, v, stack, i, fuel + 1, h, hwrites, hat, _ => by
      obtain rfl : v = .number x := h
      have hnumber := writeNumber_eq (show ∃ bytes, l.writeNumber x = .ok bytes from hwrites)
      rw [writeVariable, hat]
      simp only [hnumber]
      rfl
  | .string s, v, stack, i, fuel + 1, h, hwrites, hat, _ => by
      obtain rfl : v = .string s := h
      have hshort : s.length < 2 ^ 31 := hwrites
      rw [writeVariable, hat]
      simp only [writeString_eq hshort]
      rfl
  | .table es, v, stack, i, fuel + 1, h, hwrites, hat, hfuel => by
      obtain ⟨ref, t, rfl, -, hheap, hentries⟩ := h
      have hsize : es.size ≤ fuel := by
        rw [Tree.size] at hfuel
        omega
      have htable := writeTable_eq es ref t [] t.entries .nil stack i fuel hheap rfl
        (next_nil t) hentries hwrites hat hsize
      rw [writeVariable, hat]
      simp only [htable]
      rfl
  | .function code, v, stack, i, fuel + 1, h, hwrites, hat, hfuel => by
      obtain ⟨f, rfl, hdump⟩ := h
      have hsize : (Tree.string code : Tree N).size ≤ fuel := by
        have hfour : 4 ≤ fuel + 1 := hfuel
        change 1 ≤ fuel
        omega
      have hstring := writeVariable_eq (.string code) (.string code)
        (.string code :: .function f :: stack) (stack.length + 2) fuel rfl hwrites
        (Stack.at_top _ _) hsize
      rw [writeVariable, hat]
      simp only [hdump, List.length_cons, hstring]
      rfl
  | .remote path, v, stack, i, fuel + 1, h, _, hat, _ => by
      obtain ⟨h, rfl, hhandle, rfl, hlen⟩ := h
      rw [writeVariable, hat]
      simp only [hhandle, if_true, helperRemoteIndex_eq l hlen]
      rfl

/-- The loop over a table writes the entries after the key on the stack. -/
theorem writeTable_eq :
    ∀ (es : Entries N) (ref : Nat) (t : Table N F) (before entries : List (Val N F × Val N F))
      (key : Val N F) (stack : Stack N F) (i fuel : Nat),
      heap[ref]? = some t → t.entries = before ++ entries → t.next key = some entries.head? →
      EntriesUnfoldIn l P heap entries es →
      es.All (fun x => ∃ bytes, l.writeNumber x = .ok bytes) (fun s => s.length < 2 ^ 31) →
      stack.at i = some (.table ref) → es.size ≤ fuel →
      writeTable l heap fuel (key :: stack) i = .ok (l.encodeEntries es, stack)
  | es, _, _, _, _, _, _, _, 0, _, _, _, _, _, _, hfuel =>
      absurd hfuel (Nat.not_le.mpr (sizeEntries_pos es))
  | .nil, ref, t, before, entries, key, stack, i, fuel + 1, hheap, _, hnext, h, _, hat, _ => by
      obtain rfl : entries = [] := h
      unfold writeTable
      simp only [Stack.at_push hat, hheap, Option.bind_some, hnext, List.head?_nil]
      rfl
  | .cons k v rest, ref, t, before, entries, key, stack, i, fuel + 1, hheap, hentries, hnext, h,
      hwrites, hat, hfuel => by
      obtain ⟨key', value, later, rfl, hkey, hvalue, hlater⟩ := h
      obtain ⟨hwkey, hwvalue, hwlater⟩ := hwrites
      rw [Entries.size] at hfuel
      have hwritekey := writeVariable_eq k key' (value :: key' :: stack) (stack.length + 1) fuel
        hkey hwkey (Stack.at_push (Stack.at_top _ _) _) (by omega)
      have hwritevalue := writeVariable_eq v value (value :: key' :: stack) (stack.length + 2)
        fuel hvalue hwvalue (Stack.at_top _ _) (by omega)
      -- the key stays on the stack for the next turn
      have hwritelater := writeTable_eq rest ref t (before ++ [(key', value)]) later key' stack i
        fuel hheap (by rw [hentries, List.append_assoc]; rfl) (next_key hentries) hlater hwlater
        hat (by omega)
      unfold writeTable
      simp only [Stack.at_push hat, hheap, Option.bind_some, hnext, List.head?_cons]
      change (do
        let x ← writeVariable l heap fuel (value :: key' :: stack) (stack.length + 1)
        let y ← writeVariable l heap fuel x.2 x.2.length
        let z ← writeTable l heap fuel y.2.tail i
        pure (x.1 ++ y.1 ++ z.1, z.2)) = _
      rw [hwritekey]
      change (do
        let y ← writeVariable l heap fuel (value :: key' :: stack) (stack.length + 2)
        let z ← writeTable l heap fuel y.2.tail i
        pure (l.encode k ++ y.1 ++ z.1, z.2)) = _
      rw [hwritevalue]
      change (do
        let z ← writeTable l heap fuel (key' :: stack) i
        pure (l.encode k ++ l.encode v ++ z.1, z.2)) = _
      rw [hwritelater]
      rfl

end

end LuaRpc
