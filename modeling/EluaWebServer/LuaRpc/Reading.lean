import EluaWebServer.LuaRpc.Writing

/-!
# What is read

What a tree stands for at the other end, and that it is what `read_variable`
pushes when it reads the bytes of the tree, whatever comes after them.
-/

namespace LuaRpc

open Bytes

/-! ## Lengths -/

section

variable {N F F' : Type} {w : Link N F} {r : Link N F'}

/-- Two ends that agree on the byte order of the network. -/
def SameNet (w : Link N F) (r : Link N F') : Prop := w.tpt.netLittle = r.tpt.netLittle

theorem readU32_eq (hnet : SameNet w r) {n : Nat} (hn : n < 2 ^ 32) (rest : List UInt8) :
    r.readU32 (w.writeU32 n ++ rest) = .ok (n, rest) := by
  obtain ⟨htake, hdrop⟩ := @take_native w.tpt.netLittle 4 n rest
  have hlen : ¬ (native w.tpt.netLittle 4 n ++ rest).length < 4 := by
    rw [List.length_append, length_native]
    omega
  have hback := ofNative_native (n := 4) r.tpt.locLittle hn
  have horder := order_network r.tpt 4 n
  rw [← show w.tpt.netLittle = r.tpt.netLittle from hnet] at horder
  rw [Link.writeU32, order_native, Link.readU32, readBuffer, if_neg hlen, htake, hdrop]
  change Except.ok (ofNative r.tpt.locLittle (r.tpt.order (native w.tpt.netLittle 4 n)), rest) = _
  rw [horder, hback]

theorem readString_eq (hnet : SameNet w r) {s : List UInt8} (hs : s.length < r.room)
    (rest : List UInt8) : r.readString (w.text s ++ rest) = .ok (s, rest) := by
  have hsmall := r.room_small
  have hu32 := readU32_eq hnet (show s.length < 2 ^ 32 by omega) (s ++ rest)
  have hlen : ¬ (s ++ rest).length < s.length := by
    rw [List.length_append]
    omega
  rw [Link.text, List.append_assoc, Link.readString, hu32]
  change (if r.room ≤ s.length then _ else readBuffer s.length (s ++ rest)) = _
  rw [if_neg (by omega), readBuffer, if_neg hlen, List.take_left, List.drop_left]

end

/-! ## Trees at the reader -/

variable {N F F' R : Type} [LuaNumber N] [DecidableEq F']

mutual

/-- The value that is made of a tree: tables are new, functions are loaded, and
names are looked up. -/
def build (vm : Vm N F' R) : Tree N → Lua N F' R → Except Failure (Val N F' × Lua N F' R)
  | .nil, lua => .ok (.nil, lua)
  | .boolean b, lua => .ok (.boolean b, lua)
  | .number x, lua => .ok (.number x, lua)
  | .string s, lua => .ok (.string s, lua)
  | .table es, lua => do
      let lua' ← buildEntries vm lua.heap.length es lua.newTable
      return (.table lua.heap.length, lua')
  | .function code, lua => .ok (vm.load code lua)
  | .remote path, lua => lookup vm (strtok [] path).1 lua

/-- The entries are assigned to a table, in their order. -/
def buildEntries (vm : Vm N F' R) (ref : Nat) :
    Entries N → Lua N F' R → Except Failure (Lua N F' R)
  | .nil, lua => .ok lua
  | .cons k v rest, lua => do
      let (key, lua) ← build vm k lua
      let (value, lua) ← build vm v lua
      let lua ← lua.rawset ref key value
      buildEntries vm ref rest lua

end

/-- The number gets from the writer to the reader, whatever comes after it. -/
def RoundTrips (w : Link N F) (r : Link N F') (x : N) : Prop :=
  ∃ bytes, w.writeNumber x = .ok bytes ∧ ∀ rest, r.readNumber (bytes ++ rest) = .ok (x, rest)

/-- The numbers get from one end to the other, and there is room for the
strings. -/
def Transmits (w : Link N F) (r : Link N F') (t : Tree N) : Prop :=
  t.All (RoundTrips w r) fun s => s.length < r.room

theorem readIndex_eq {w : Link N F} {r : Link N F'} (vm : Vm N F' R) (hnet : SameNet w r)
    {path : List UInt8} (hroom : path.length < r.room) {lua : Lua N F' R} {stack : Stack N F'}
    {rest : List UInt8} :
    readIndex r vm ⟨lua, stack, w.text path ++ rest⟩ =
      (lookup vm (strtok [] path).1 lua).map fun p => ⟨p.2, p.1 :: stack, rest⟩ := by
  rw [readIndex, readString_eq hnet hroom]
  change (do
    let p ← lookup vm (strtok [] path).1 lua
    pure (⟨p.2, p.1 :: stack, rest⟩ : Conn N F' R)) = _
  cases lookup vm (strtok [] path).1 lua with
  | error e => rfl
  | ok p => rfl

theorem conn_rawset_eq {lua : Lua N F' R} {stack : Stack N F'} {i ref : Nat}
    {input : List UInt8} (hat : stack.at i = some (.table ref)) {key value : Val N F'} :
    Conn.rawset ⟨lua, value :: key :: stack, input⟩ i =
      (lua.rawset ref key value).map fun lua' => ⟨lua', stack, input⟩ := by
  rw [Conn.rawset, Stack.at_push (Stack.at_push hat key) value]
  change (do
    let lua' ← lua.rawset ref key value
    pure (⟨lua', stack, input⟩ : Conn N F' R)) = _
  cases lua.rawset ref key value with
  | error e => rfl
  | ok lua' => rfl

/-! ## Bytes that are a tree -/

mutual

/-- The bytes are one variable to the reader, which is a tree. -/
def Reads (r : Link N F') (bytes : List UInt8) : Tree N → Prop
  | .nil => bytes = [RpcType.nil.toByte]
  | .boolean b => bytes = [RpcType.boolean.toByte, b.toUInt8]
  | .number x => ∃ number, bytes = RpcType.number.toByte :: number ∧
      ∀ rest, r.readNumber (number ++ rest) = .ok (x, rest)
  | .string s => bytes = RpcType.string.toByte :: r.text s ∧ s.length < r.room
  | .table es => ∃ entries, bytes = RpcType.table.toByte ::
      (entries ++ [RpcType.tableEnd.toByte]) ∧ ReadsEntries r entries es
  | .function code => bytes = RpcType.function.toByte ::
      (RpcType.string.toByte :: r.text code ++ [RpcType.functionEnd.toByte]) ∧
        code.length < r.room
  | .remote path => bytes = RpcType.remote.toByte :: r.text path ∧ path.length < r.room

def ReadsEntries (r : Link N F') (bytes : List UInt8) : Entries N → Prop
  | .nil => bytes = []
  | .cons k v rest => ∃ key value later, bytes = key ++ value ++ later ∧ Reads r key k ∧
      Reads r value v ∧ ReadsEntries r later rest

end

section

omit [LuaNumber N] [DecidableEq F']

/-- The bytes of a string are the same on both ends. -/
theorem text_eq {w : Link N F} {r : Link N F'} (hnet : SameNet w r) (s : List UInt8) :
    w.text s = r.text s := by
  rw [Link.text, Link.text, Link.writeU32, Link.writeU32, order_native, order_native,
    show w.tpt.netLittle = r.tpt.netLittle from hnet]

mutual

/-- The bytes of a tree are that tree to the reader. -/
theorem reads_encode {w : Link N F} {r : Link N F'} (hnet : SameNet w r) :
    ∀ t : Tree N, Transmits w r t → Reads r (w.encode t) t
  | .nil, _ => rfl
  | .boolean _, _ => rfl
  | .number x, h => by
      obtain ⟨bytes, hwrite, hread⟩ : RoundTrips w r x := h
      refine ⟨w.number x, rfl, ?_⟩
      rw [Link.number, hwrite]
      exact hread
  | .string s, h => ⟨by rw [← text_eq hnet]; rfl, h⟩
  | .table es, h => ⟨w.encodeEntries es, rfl, readsEntries_encode hnet es h⟩
  | .function code, h => ⟨by rw [← text_eq hnet]; rfl, h⟩
  | .remote path, h => ⟨by rw [← text_eq hnet]; rfl, h⟩

theorem readsEntries_encode {w : Link N F} {r : Link N F'} (hnet : SameNet w r) :
    ∀ es : Entries N, es.All (RoundTrips w r) (fun s => s.length < r.room) →
      ReadsEntries r (w.encodeEntries es) es
  | .nil, _ => rfl
  | .cons k v rest, ⟨hk, hv, hrest⟩ => ⟨w.encode k, w.encode v, w.encodeEntries rest, rfl,
      reads_encode hnet k hk, reads_encode hnet v hv, readsEntries_encode hnet rest hrest⟩

end

end

section

variable (r : Link N F') (vm : Vm N F' R)

mutual

/-- **Reading a variable** reads exactly its bytes, and pushes what its tree
stands for at the reader, if it stands for something there. -/
theorem readVariable_of_reads :
    ∀ (t : Tree N) (bytes : List UInt8) (lua : Lua N F' R) (stack : Stack N F')
      (rest : List UInt8) (fuel : Nat), Reads r bytes t → t.size ≤ fuel →
      readVariable r vm fuel ⟨lua, stack, bytes ++ rest⟩ =
        (build vm t lua).map fun p => (true, ⟨p.2, p.1 :: stack, rest⟩)
  | t, _, _, _, _, 0, _, hfuel => absurd hfuel (Nat.not_le.mpr (size_pos t))
  | .nil, bytes, lua, stack, rest, fuel + 1, h, _ => by
      obtain rfl : bytes = [RpcType.nil.toByte] := h
      rfl
  | .boolean b, bytes, lua, stack, rest, fuel + 1, h, _ => by
      obtain rfl : bytes = [RpcType.boolean.toByte, b.toUInt8] := h
      cases b <;> rfl
  | .number x, bytes, lua, stack, rest, fuel + 1, h, _ => by
      obtain ⟨number, rfl, hread⟩ := h
      change (do
        let p ← r.readNumber (number ++ rest)
        pure (true, (⟨lua, .number p.1 :: stack, p.2⟩ : Conn N F' R))) = _
      rw [hread]
      rfl
  | .string s, bytes, lua, stack, rest, fuel + 1, h, _ => by
      obtain ⟨rfl, hroom⟩ := h
      change (do
        let p ← r.readString (r.text s ++ rest)
        pure (true, (⟨lua, .string p.1 :: stack, p.2⟩ : Conn N F' R))) = _
      rw [@readString_eq N F' F' r r rfl _ hroom]
      rfl
  | .table es, bytes, lua, stack, rest, fuel + 1, h, hfuel => by
      obtain ⟨entries, rfl, hentries⟩ := h
      have hsize : es.size ≤ fuel := by
        have hle : es.size + 1 ≤ fuel + 1 := hfuel
        omega
      have htable := readTable_of_reads es entries lua.heap.length lua.newTable
        (.table lua.heap.length :: stack) (stack.length + 1) rest fuel (Stack.at_top _ _) hentries
        hsize
      have hbytes : entries ++ [RpcType.tableEnd.toByte] ++ rest =
          entries ++ RpcType.tableEnd.toByte :: rest := by
        rw [List.append_assoc]
        rfl
      change (do
        let c ← readTable r vm fuel (stack.length + 1)
          ⟨lua.newTable, .table lua.heap.length :: stack,
            entries ++ [RpcType.tableEnd.toByte] ++ rest⟩
        pure (true, c)) = (do
        let lua' ← buildEntries vm lua.heap.length es lua.newTable
        pure (Val.table lua.heap.length, lua')).map _
      rw [hbytes, htable]
      cases buildEntries vm lua.heap.length es lua.newTable with
      | error e => rfl
      | ok lua' => rfl
  | .function code, _, lua, stack, rest, 1, _, hfuel =>
      absurd (show 4 ≤ 1 from hfuel) (by decide)
  | .function code, _, lua, stack, rest, 2, _, hfuel =>
      absurd (show 4 ≤ 2 from hfuel) (by decide)
  | .function code, bytes, lua, stack, rest, fuel + 3, h, hfuel => by
      obtain ⟨rfl, hroom⟩ := h
      have hone : 1 ≤ fuel := by
        have hfour : 4 ≤ fuel + 3 := hfuel
        omega
      obtain ⟨fuel, rfl⟩ : ∃ n, fuel = n + 1 := ⟨fuel - 1, by omega⟩
      have hstring := readVariable_of_reads (.string code) (RpcType.string.toByte :: r.text code)
        lua stack (RpcType.functionEnd.toByte :: rest) (fuel + 2) ⟨rfl, hroom⟩
        (Nat.le_add_left _ _)
      have hbytes : RpcType.string.toByte :: r.text code ++ [RpcType.functionEnd.toByte] ++ rest =
          RpcType.string.toByte :: r.text code ++ RpcType.functionEnd.toByte :: rest := by
        rw [List.append_assoc]
        rfl
      change (do
        let c ← readFunction r vm (fuel + 3) ⟨lua, stack,
          RpcType.string.toByte :: r.text code ++ [RpcType.functionEnd.toByte] ++ rest⟩
        pure (true, c)) = _
      rw [hbytes, readFunction, hstring]
      rfl
  | .remote path, bytes, lua, stack, rest, fuel + 1, h, _ => by
      obtain ⟨rfl, hroom⟩ := h
      change (do
        let c ← readIndex r vm ⟨lua, stack, r.text path ++ rest⟩
        pure (true, c)) = (lookup vm (strtok [] path).1 lua).map _
      rw [@readIndex_eq N F' F' R _ _ r r vm rfl _ hroom]
      cases lookup vm (strtok [] path).1 lua with
      | error e => rfl
      | ok p => rfl

/-- The loop over a table reads its entries and the mark at its end. -/
theorem readTable_of_reads :
    ∀ (es : Entries N) (bytes : List UInt8) (ref : Nat) (lua : Lua N F' R) (stack : Stack N F')
      (i : Nat) (rest : List UInt8) (fuel : Nat), stack.at i = some (.table ref) →
      ReadsEntries r bytes es → es.size ≤ fuel →
      readTable r vm fuel i ⟨lua, stack, bytes ++ RpcType.tableEnd.toByte :: rest⟩ =
        (buildEntries vm ref es lua).map fun lua' => ⟨lua', stack, rest⟩
  | es, _, _, _, _, _, _, 0, _, _, hfuel => absurd hfuel (Nat.not_le.mpr (sizeEntries_pos es))
  | .nil, _, ref, lua, stack, i, rest, 1, _, _, hfuel =>
      absurd (show 2 ≤ 1 from hfuel) (by decide)
  | .nil, bytes, ref, lua, stack, i, rest, fuel + 2, _, h, _ => by
      obtain rfl : bytes = [] := h
      rfl
  | .cons k v later, bytes, ref, lua, stack, i, rest, fuel + 1, hat, h, hfuel => by
      obtain ⟨kbytes, vbytes, lbytes, rfl, hk, hv, hlater⟩ := h
      have hsize : k.size + v.size + later.size + 1 ≤ fuel + 1 := hfuel
      have hbytes : kbytes ++ vbytes ++ lbytes ++ RpcType.tableEnd.toByte :: rest =
          kbytes ++ (vbytes ++ (lbytes ++ RpcType.tableEnd.toByte :: rest)) := by
        rw [← List.append_assoc, ← List.append_assoc]
      have hkey := readVariable_of_reads k kbytes lua stack
        (vbytes ++ (lbytes ++ RpcType.tableEnd.toByte :: rest)) fuel hk (by omega)
      rw [hbytes]
      change (do
        let p ← readVariable r vm fuel ⟨lua, stack, kbytes ++ (vbytes ++
          (lbytes ++ RpcType.tableEnd.toByte :: rest))⟩
        if p.1 then
          let q ← readVariable r vm fuel p.2
          let c ← q.2.rawset i
          readTable r vm fuel i c
        else pure p.2) = (do
        let p ← build vm k lua
        let q ← build vm v p.2
        let lua ← q.2.rawset ref p.1 q.1
        buildEntries vm ref later lua).map _
      rw [hkey]
      cases build vm k lua with
      | error e => rfl
      | ok p =>
          obtain ⟨key, lua₁⟩ := p
          have hvalue := readVariable_of_reads v vbytes lua₁ (key :: stack)
            (lbytes ++ RpcType.tableEnd.toByte :: rest) fuel hv (by omega)
          change (do
            let q ← readVariable r vm fuel ⟨lua₁, key :: stack, vbytes ++
              (lbytes ++ RpcType.tableEnd.toByte :: rest)⟩
            let c ← q.2.rawset i
            readTable r vm fuel i c) = (do
            let q ← build vm v lua₁
            let lua ← q.2.rawset ref key q.1
            buildEntries vm ref later lua).map _
          rw [hvalue]
          cases build vm v lua₁ with
          | error e => rfl
          | ok q =>
              obtain ⟨value, lua₂⟩ := q
              change (do
                let c ← Conn.rawset ⟨lua₂, value :: key :: stack,
                  lbytes ++ RpcType.tableEnd.toByte :: rest⟩ i
                readTable r vm fuel i c) = (do
                let lua ← lua₂.rawset ref key value
                buildEntries vm ref later lua).map _
              rw [conn_rawset_eq hat]
              cases lua₂.rawset ref key value with
              | error e => rfl
              | ok lua₃ =>
                  exact readTable_of_reads later lbytes ref lua₃ stack i rest fuel hat hlater
                    (by omega)

end

end

variable (w : Link N F) (r : Link N F') (vm : Vm N F' R)

/-- **Reading a tree** reads exactly its bytes, and pushes what the tree stands
for at the reader, if it stands for something there. -/
theorem readVariable_eq (hnet : SameNet w r) (t : Tree N) (lua : Lua N F' R) (stack : Stack N F')
    (rest : List UInt8) (fuel : Nat) (htransmits : Transmits w r t) (hfuel : t.size ≤ fuel) :
    readVariable r vm fuel ⟨lua, stack, w.encode t ++ rest⟩ =
      (build vm t lua).map fun p => (true, ⟨p.2, p.1 :: stack, rest⟩) :=
  readVariable_of_reads r vm t (w.encode t) lua stack rest fuel (reads_encode hnet t htransmits)
    hfuel

end LuaRpc
