import EluaWebServer.LuaRpc.Nesting
import EluaWebServer.LuaRpc.Sending

/-!
# Values that are written whole or not at all

A value that can be written has a tree at the reader.  A type that is not known to `write_variable`
writes nothing without raising an error, and what is known to be wrong is only seen when the type
byte of the table around it has been written.
-/

namespace LuaRpc

open Bytes

variable {N F F' : Type} [LuaNumber N] [DecidableEq F]

/-- One variable that `read_variable` consumes, and nothing after it. -/
def OneVariable [DecidableEq F'] (r : Link N F') (bytes : List UInt8) : Prop :=
  ∃ t : Tree N, Reads r bytes t ∧
    ∀ (R : Type) (vm : Vm N F' R) (lua : Lua N F' R) (stack : Stack N F') (rest : List UInt8)
      (fuel : Nat), t.size ≤ fuel →
      readVariable r vm fuel ⟨lua, stack, bytes ++ rest⟩ =
        (build vm t lua).map fun p => (true, ⟨p.2, p.1 :: stack, rest⟩)

/-- With enough of the C stack, an error is raised before any byte of the value is written, or the
value is written as one variable. -/
def AllOrNothing [DecidableEq F'] (l : Link N F) (r : Link N F') (heap : Heap N F) (v : Val N F) :
    Prop :=
  ∀ (stack : Stack N F) (i : Nat), stack.at i = some v → ∃ fuel,
    (∃ e, sendVariable l heap fuel stack i = ⟨[], .error e⟩ ∧ e.Raised) ∨
      ∃ bytes, sendVariable l heap fuel stack i = ⟨bytes, .ok stack⟩ ∧ OneVariable r bytes

/-- A value, and everything in the tables that it leads to. -/
inductive Reaches (heap : Heap N F) (v : Val N F) : Val N F → Prop
  | self : Reaches heap v v
  | key {ref : Nat} {t : Table N F} {e : Val N F × Val N F} :
      Reaches heap v (.table ref) → heap[ref]? = some t → e ∈ t.entries → Reaches heap v e.1
  | value {ref : Nat} {t : Table N F} {e : Val N F × Val N F} :
      Reaches heap v (.table ref) → heap[ref]? = some t → e ∈ t.entries → Reaches heap v e.2

/-- The types whose transmission is unsupported. -/
def Rejected : Val N F → Prop
  | .userdata _ => True
  | .thread _ => True
  | .lightuserdata _ => True
  | _ => False

/-- What is written of a string after its length: its first bytes, as many as an `int` says. -/
def Counted (s d : List UInt8) : Prop :=
  s.length % 2 ^ 32 < 2 ^ 31 ∧ d = s.take (s.length % 2 ^ 32)

/-- What `helper_remote_index` writes after the length. -/
def Helper.names (h : Helper) : List UInt8 :=
  (h.hstack.flatMap fun name => name ++ [dot]) ++ h.funcname

mutual

/-- A value that is written as a tree that has room at the reader: nowhere in it is a type that is
not known or not supported, a function without code or a helper of another handle, every number
arrives as one, and every length is the one that is announced. -/
def Sends (l : Link N F) (r : Link N F') (heap : Heap N F) (v : Val N F) : Tree N → Prop
  | .nil => v = .nil
  | .boolean b => v = .boolean b
  | .number y => ∃ x bytes, v = .number x ∧ l.writeNumber x = .ok bytes ∧
      ∀ rest, r.readNumber (bytes ++ rest) = .ok (y, rest)
  | .string d => ∃ s, v = .string s ∧ Counted s d ∧ d.length < r.room
  | .table es => ∃ ref t, v = .table ref ∧ heap[ref]? = some t ∧ EntriesSend l r heap t.entries es
  | .function d => ∃ f code, v = .function f ∧ l.dump f = some code ∧ Counted code d ∧
      d.length < r.room
  | .remote path => ∃ h, v = .helper h ∧ l.handle = some h.handle ∧ h.names = path ∧
      h.len % 2 ^ 32 = path.length ∧ path.length < r.room

def EntriesSend (l : Link N F) (r : Link N F') (heap : Heap N F)
    (entries : List (Val N F × Val N F)) : Entries N → Prop
  | .nil => entries = []
  | .cons k v rest => ∃ key value later, entries = (key, value) :: later ∧
      Sends l r heap key k ∧ Sends l r heap value v ∧ EntriesSend l r heap later rest

end

/-! ## Texts -/

section

omit [LuaNumber N] [DecidableEq F]

theorem helperRemoteIndex_names (l : Link N F) (h : Helper) :
    l.helperRemoteIndex h = l.writeU32 h.len ++ h.names := by
  rw [Link.helperRemoteIndex, Helper.names, List.append_assoc]

theorem length_writeU32 (l : Link N F) (n : Nat) : (l.writeU32 n).length = 4 := by
  rw [Link.writeU32, order_native, length_native]

/-- A length and some bytes are a text exactly if the length is that of the bytes. -/
theorem text_iff {l : Link N F} {r : Link N F'} (hnet : SameNet l r) {n : Nat}
    {d s : List UInt8} (hs : s.length < r.room) :
    l.writeU32 n ++ d = r.text s ↔ n % 2 ^ 32 = s.length ∧ d = s := by
  have hsmall := r.room_small
  have hmod : s.length % 2 ^ (8 * 4) = s.length := Nat.mod_eq_of_lt (by omega)
  have hwrite (m : Nat) : l.writeU32 m = native l.tpt.netLittle 4 m := by
    rw [Link.writeU32, order_native]
  rw [← text_eq hnet, Link.text, hwrite, hwrite]
  constructor
  · intro h
    obtain ⟨hlength, hd⟩ := List.append_inj h (by rw [length_native, length_native])
    have hback := congrArg (ofNative l.tpt.netLittle) hlength
    rw [ofNative_native_mod, ofNative_native_mod, hmod] at hback
    exact ⟨hback, hd⟩
  · rintro ⟨hn, rfl⟩
    rw [← native_mod _ 4 n]
    exact congrArg (fun m => native l.tpt.netLittle 4 m ++ d) hn

/-- What is written of a string is a text exactly if it is what is counted. -/
theorem writeString_text_iff {l : Link N F} {r : Link N F'} (hnet : SameNet l r)
    {s d : List UInt8} (hd : d.length < r.room) :
    l.writeU32 s.length ++ writeString s = r.text d ↔ Counted s d := by
  have hsmall := r.room_small
  rw [text_iff hnet hd, Counted]
  constructor
  · rintro ⟨hlength, hstring⟩
    have hlt : s.length % 2 ^ 32 < 2 ^ 31 := by omega
    rw [writeString, if_pos hlt] at hstring
    exact ⟨hlt, hstring.symm⟩
  · rintro ⟨hlt, rfl⟩
    refine ⟨?_, if_pos hlt⟩
    rw [List.length_take, Nat.min_eq_left (Nat.mod_le _ _)]

end

/-! ## What is written, type by type -/

section

variable {l : Link N F} {heap : Heap N F} {stack : Stack N F} {i : Nat} (fuel : Nat)

theorem sendVariable_number {x : N} (hat : stack.at i = some (.number x)) :
    sendVariable l heap (fuel + 1) stack i =
      match l.writeNumber x with
      | .ok bytes => ⟨RpcType.number.toByte :: bytes, .ok stack⟩
      | .error e => ⟨[RpcType.number.toByte], .error e⟩ := by
  rw [sendVariable, hat]
  simp only
  cases l.writeNumber x with
  | error e => rfl
  | ok bytes =>
      change (⟨[RpcType.number.toByte] ++ ([] ++ (bytes ++ [])), .ok stack⟩ :
        Sent (Stack N F)) = _
      rw [List.append_nil, List.nil_append, List.singleton_append]

theorem sendVariable_string {s : List UInt8} (hat : stack.at i = some (.string s)) :
    sendVariable l heap (fuel + 1) stack i =
      ⟨RpcType.string.toByte :: (l.writeU32 s.length ++ writeString s), .ok stack⟩ := by
  rw [sendVariable, hat]
  change (⟨[RpcType.string.toByte] ++ (l.writeU32 s.length ++ (writeString s ++ [])),
    .ok stack⟩ : Sent (Stack N F)) = _
  rw [List.append_nil, List.singleton_append]

theorem sendVariable_table {ref : Nat} (hat : stack.at i = some (.table ref)) :
    sendVariable l heap (fuel + 1) stack i =
      match sendTable l heap fuel (.nil :: stack) i with
      | ⟨bytes, .ok stack'⟩ =>
          ⟨RpcType.table.toByte :: (bytes ++ [RpcType.tableEnd.toByte]), .ok stack'⟩
      | ⟨bytes, .error e⟩ => ⟨RpcType.table.toByte :: bytes, .error e⟩ := by
  rw [sendVariable, hat]
  simp only
  obtain ⟨bytes, result⟩ := sendTable l heap fuel (.nil :: stack) i
  cases result with
  | error e => rfl
  | ok stack' => rfl

theorem sendVariable_function {f : F} {code : List UInt8} (hat : stack.at i = some (.function f))
    (hdump : l.dump f = some code) :
    sendVariable l heap (fuel + 2) stack i =
      ⟨RpcType.function.toByte :: (RpcType.string.toByte ::
        (l.writeU32 code.length ++ writeString code) ++ [RpcType.functionEnd.toByte]),
        .ok stack⟩ := by
  have hstring : sendVariable l heap (fuel + 1) (.string code :: .function f :: stack)
      ((Val.function f :: stack).length + 1) = _ :=
    sendVariable_string fuel (Stack.at_top (.string code) (.function f :: stack))
  rw [sendVariable, hat]
  simp only [hdump, List.length_cons]
  rw [List.length_cons] at hstring
  rw [hstring]
  rfl

/-- The names of a helper of another handle are sent elsewhere. -/
theorem sendVariable_other {h : Helper} (hat : stack.at i = some (.helper h))
    (hhandle : l.handle ≠ some h.handle) :
    sendVariable l heap (fuel + 1) stack i = ⟨[RpcType.remote.toByte], .ok stack⟩ := by
  rw [sendVariable, hat]
  simp only
  rw [if_neg hhandle]
  rfl

theorem sendVariable_helper {h : Helper} (hat : stack.at i = some (.helper h))
    (hhandle : l.handle = some h.handle) :
    sendVariable l heap (fuel + 1) stack i =
      ⟨RpcType.remote.toByte :: (l.writeU32 h.len ++ h.names), .ok stack⟩ := by
  rw [sendVariable, hat]
  simp only
  rw [if_pos hhandle, ← helperRemoteIndex_names]
  change (⟨[RpcType.remote.toByte] ++ (l.helperRemoteIndex h ++ []), .ok stack⟩ :
    Sent (Stack N F)) = _
  rw [List.append_nil, List.singleton_append]

end

/-! ## What is written of a tree -/

variable {l : Link N F} {r : Link N F'} {heap : Heap N F}

mutual

/-- **Writing a value that has a tree** writes one variable that is the tree, and leaves the stack
as it was. -/
theorem sendVariable_of_sends (hnet : SameNet l r) :
    ∀ (t : Tree N) (v : Val N F), Sends l r heap v t → ∃ bytes, Reads r bytes t ∧
      ∀ (stack : Stack N F) (i fuel : Nat), stack.at i = some v → t.size ≤ fuel →
        sendVariable l heap fuel stack i = ⟨bytes, .ok stack⟩
  | .nil, v, h => by
      obtain rfl : v = .nil := h
      refine ⟨_, rfl, fun stack i fuel hat hfuel => ?_⟩
      cases fuel with
      | zero => exact absurd hfuel (Nat.not_le.mpr Nat.one_pos)
      | succ fuel =>
          rw [sendVariable, hat]
          rfl
  | .boolean b, v, h => by
      obtain rfl : v = .boolean b := h
      refine ⟨_, rfl, fun stack i fuel hat hfuel => ?_⟩
      cases fuel with
      | zero => exact absurd hfuel (Nat.not_le.mpr Nat.one_pos)
      | succ fuel =>
          rw [sendVariable, hat]
          rfl
  | .number y, v, h => by
      obtain ⟨x, bytes, rfl, hwrite, hread⟩ := h
      refine ⟨RpcType.number.toByte :: bytes, ⟨bytes, rfl, hread⟩, fun stack i fuel hat hfuel => ?_⟩
      cases fuel with
      | zero => exact absurd hfuel (Nat.not_le.mpr Nat.one_pos)
      | succ fuel => rw [sendVariable_number fuel hat, hwrite]
  | .string d, v, h => by
      obtain ⟨s, rfl, hcounted, hroom⟩ := h
      refine ⟨_, ⟨rfl, hroom⟩, fun stack i fuel hat hfuel => ?_⟩
      cases fuel with
      | zero => exact absurd hfuel (Nat.not_le.mpr Nat.one_pos)
      | succ fuel =>
          rw [sendVariable_string fuel hat, (writeString_text_iff hnet hroom).mpr hcounted]
  | .table es, v, h => by
      obtain ⟨ref, t, rfl, hheap, hentries⟩ := h
      obtain ⟨bytes, hreads, hsend⟩ := sendTable_of_sends hnet es t.entries hentries
      refine ⟨_, ⟨bytes, rfl, hreads⟩, fun stack i fuel hat hfuel => ?_⟩
      cases fuel with
      | zero => exact absurd hfuel (Nat.not_le.mpr (size_pos _))
      | succ fuel =>
          have hsize : es.size ≤ fuel := by
            rw [Tree.size] at hfuel
            omega
          rw [sendVariable_table fuel hat,
            hsend ref t [] .nil stack i fuel hheap rfl (next_nil t) hat hsize]
  | .function d, v, h => by
      obtain ⟨f, code, rfl, hdump, hcounted, hroom⟩ := h
      refine ⟨_, ⟨rfl, hroom⟩, fun stack i fuel hat hfuel => ?_⟩
      obtain ⟨fuel, rfl⟩ : ∃ n, fuel = n + 2 :=
        ⟨fuel - 2, by have hfour : 4 ≤ fuel := hfuel; omega⟩
      rw [sendVariable_function fuel hat hdump, (writeString_text_iff hnet hroom).mpr hcounted]
  | .remote path, v, h => by
      obtain ⟨h, rfl, hhandle, hnames, hlen, hroom⟩ := h
      refine ⟨_, ⟨rfl, hroom⟩, fun stack i fuel hat hfuel => ?_⟩
      cases fuel with
      | zero => exact absurd hfuel (Nat.not_le.mpr Nat.one_pos)
      | succ fuel =>
          rw [sendVariable_helper fuel hat hhandle, (text_iff hnet hroom).mpr ⟨hlen, hnames⟩]

/-- The loop writes the entries after the key on the stack. -/
theorem sendTable_of_sends (hnet : SameNet l r) :
    ∀ (es : Entries N) (entries : List (Val N F × Val N F)), EntriesSend l r heap entries es →
      ∃ bytes, ReadsEntries r bytes es ∧
        ∀ (ref : Nat) (t : Table N F) (before : List (Val N F × Val N F)) (key : Val N F)
          (stack : Stack N F) (i fuel : Nat), heap[ref]? = some t → t.entries = before ++ entries →
          t.next key = some entries.head? → stack.at i = some (.table ref) → es.size ≤ fuel →
          sendTable l heap fuel (key :: stack) i = ⟨bytes, .ok stack⟩
  | .nil, entries, h => by
      obtain rfl : entries = [] := h
      refine ⟨[], rfl, fun ref t before key stack i fuel hheap _ hnext hat hfuel => ?_⟩
      cases fuel with
      | zero => exact absurd hfuel (Nat.not_le.mpr (sizeEntries_pos _))
      | succ fuel =>
          unfold sendTable
          simp only [Stack.at_push hat, hheap, Option.bind_some, hnext, List.head?_nil]
          rfl
  | .cons k v rest, entries, h => by
      obtain ⟨key', value, later, rfl, hkey, hvalue, hlater⟩ := h
      obtain ⟨kbytes, hkreads, hksend⟩ := sendVariable_of_sends hnet k key' hkey
      obtain ⟨vbytes, hvreads, hvsend⟩ := sendVariable_of_sends hnet v value hvalue
      obtain ⟨lbytes, hlreads, hlsend⟩ := sendTable_of_sends hnet rest later hlater
      refine ⟨_, ⟨kbytes, vbytes, lbytes, rfl, hkreads, hvreads, hlreads⟩,
        fun ref t before key stack i fuel hheap hentries hnext hat hfuel => ?_⟩
      cases fuel with
      | zero => exact absurd hfuel (Nat.not_le.mpr (sizeEntries_pos _))
      | succ fuel =>
          rw [Entries.size] at hfuel
          have hk := hksend (value :: key' :: stack) (stack.length + 1) fuel
            (Stack.at_push (Stack.at_top _ _) _) (by omega)
          have hv := hvsend (value :: key' :: stack) (stack.length + 2) fuel (Stack.at_top _ _)
            (by omega)
          -- the key stays on the stack for the next turn
          have hl := hlsend ref t (before ++ [(key', value)]) key' stack i fuel hheap
            (by rw [hentries, List.append_assoc]; rfl) (next_key hentries) hat (by omega)
          unfold sendTable
          simp only [Stack.at_push hat, hheap, Option.bind_some, hnext, List.head?_cons]
          change (do
            let stack ← sendVariable l heap fuel (value :: key' :: stack) (stack.length + 1)
            let stack ← sendVariable l heap fuel stack stack.length
            sendTable l heap fuel stack.tail i) = _
          rw [hk, Sent.bind_ok]
          change (⟨kbytes ++ (do
              let stack ← sendVariable l heap fuel (value :: key' :: stack) (stack.length + 2)
              sendTable l heap fuel stack.tail i).bytes, (do
              let stack ← sendVariable l heap fuel (value :: key' :: stack) (stack.length + 2)
              sendTable l heap fuel stack.tail i).result⟩ : Sent (Stack N F)) = _
          rw [hv, Sent.bind_ok, List.tail_cons, hl, List.append_assoc]

end

/-! ## What has been written -/

/-- A turn of the loop that succeeds is the last one, or writes an entry and goes on. -/
theorem sendTable_ok {fuel : Nat} {key : Val N F} {stack : Stack N F} {i : Nat}
    {stack' : Stack N F}
    (h : (sendTable l heap (fuel + 1) (key :: stack) i).result = .ok stack') :
    ∃ ref, Stack.at (key :: stack) i = some (.table ref) ∧
      ((heap[ref]?.bind fun t => t.next key) = some none ∧ stack' = stack ∨
        ∃ k v stack₁ stack₂, (heap[ref]?.bind fun t => t.next key) = some (some (k, v)) ∧
          (sendVariable l heap fuel (v :: k :: stack) (stack.length + 1)).result = .ok stack₁ ∧
          (sendVariable l heap fuel stack₁ stack₁.length).result = .ok stack₂ ∧
          (sendTable l heap fuel stack₂.tail i).result = .ok stack') := by
  unfold sendTable at h
  cases hat : Stack.at (key :: stack) i with
  | none =>
      rw [hat] at h
      cases h
  | some v =>
      cases v with
      | table ref =>
          refine ⟨ref, rfl, ?_⟩
          simp only [hat] at h
          cases hnext : heap[ref]?.bind fun t => t.next key with
          | none =>
              rw [hnext] at h
              cases h
          | some next =>
              rw [hnext] at h
              cases next with
              | none => exact .inl ⟨rfl, (Except.ok.inj h).symm⟩
              | some entry =>
                  obtain ⟨bytes₁, stack₁, hkey, h⟩ := Sent.exists_of_bind_ok h
                  obtain ⟨bytes₂, stack₂, hvalue, hlater⟩ := Sent.exists_of_bind_ok h
                  exact .inr ⟨entry.1, entry.2, stack₁, stack₂, rfl, congrArg Sent.result hkey,
                    congrArg Sent.result hvalue, hlater⟩
      | _ =>
          rw [hat] at h
          cases h

/-- **The stack** is as it was when a value has been written. -/
theorem send_keeps (l : Link N F) (heap : Heap N F) (fuel : Nat) :
    (∀ (stack : Stack N F) (i : Nat) stack',
      (sendVariable l heap fuel stack i).result = .ok stack' → stack' = stack) ∧
      ∀ (key : Val N F) (stack : Stack N F) (i : Nat) stack',
        (sendTable l heap fuel (key :: stack) i).result = .ok stack' → stack' = stack := by
  induction fuel with
  | zero => exact ⟨fun _ _ _ h => (by cases h), fun _ _ _ _ h => (by cases h)⟩
  | succ fuel ih =>
      obtain ⟨hvariable, htable⟩ := ih
      constructor
      · intro stack i stack' h
        cases hat : stack.at i with
        | none =>
            rw [sendVariable, hat] at h
            exact (Except.ok.inj h).symm
        | some v =>
            cases v with
            | number x =>
                rw [sendVariable_number fuel hat] at h
                cases hwrite : l.writeNumber x with
                | error e =>
                    rw [hwrite] at h
                    cases h
                | ok bytes =>
                    rw [hwrite] at h
                    exact (Except.ok.inj h).symm
            | table ref =>
                rw [sendVariable_table fuel hat] at h
                cases hsend : sendTable l heap fuel (.nil :: stack) i with
                | mk bytes result =>
                    rw [hsend] at h
                    cases result with
                    | error e => cases h
                    | ok stack₁ =>
                        obtain rfl : stack₁ = stack' := Except.ok.inj h
                        exact htable .nil stack i stack₁ (by rw [hsend])
            | function f =>
                rw [sendVariable, hat] at h
                simp only at h
                obtain ⟨-, -, -, h⟩ := Sent.exists_of_bind_ok h
                cases hdump : l.dump f with
                | none =>
                    rw [hdump] at h
                    cases h
                | some code =>
                    rw [hdump] at h
                    obtain ⟨bytes, stack₁, hsend, h⟩ := Sent.exists_of_bind_ok h
                    obtain rfl := hvariable _ _ stack₁ (by rw [hsend])
                    obtain ⟨-, -, -, h⟩ := Sent.exists_of_bind_ok h
                    exact (Except.ok.inj h).symm
            | helper helper =>
                by_cases hhandle : l.handle = some helper.handle
                · rw [sendVariable_helper fuel hat hhandle] at h
                  exact (Except.ok.inj h).symm
                · rw [sendVariable_other fuel hat hhandle] at h
                  exact (Except.ok.inj h).symm
            | userdata id =>
                rw [sendVariable, hat] at h
                cases h
            | thread id =>
                rw [sendVariable, hat] at h
                cases h
            | lightuserdata id =>
                rw [sendVariable, hat] at h
                cases h
            | _ =>
                rw [sendVariable, hat] at h
                exact (Except.ok.inj h).symm
      · intro key stack i stack' h
        obtain ⟨ref, -, ⟨-, rfl⟩ | ⟨k, v, stack₁, stack₂, -, hkey, hvalue, hlater⟩⟩ :=
          sendTable_ok h
        · rfl
        · obtain rfl := hvariable _ _ _ hkey
          obtain rfl := hvariable _ _ _ hvalue
          exact htable _ _ _ _ hlater

/-- The type byte of a tree. -/
def Tree.type {N : Type} : Tree N → RpcType
  | .nil => .nil
  | .boolean _ => .boolean
  | .number _ => .number
  | .string _ => .string
  | .table _ => .table
  | .function _ => .function
  | .remote _ => .remote

omit [LuaNumber N] in
theorem toByte_inj {a b : RpcType} (h : a.toByte = b.toByte) : a = b := by
  have hsome := congrArg RpcType.ofByte h
  rw [ofByte_toByte, ofByte_toByte] at hsome
  exact Option.some.inj hsome

omit [LuaNumber N] [DecidableEq F] in
/-- The first byte of a variable is that of its type. -/
theorem exists_of_reads {bytes : List UInt8} {t : Tree N} (h : Reads r bytes t) :
    ∃ rest, bytes = t.type.toByte :: rest := by
  cases t with
  | nil => exact ⟨_, h⟩
  | boolean b => exact ⟨_, h⟩
  | number x =>
      obtain ⟨number, h, -⟩ := h
      exact ⟨_, h⟩
  | table es =>
      obtain ⟨entries, h, -⟩ := h
      exact ⟨_, h⟩
  | _ => exact ⟨_, h.1⟩

omit [LuaNumber N] [DecidableEq F] in
theorem type_of_reads {type : RpcType} {bytes : List UInt8} {t : Tree N}
    (h : Reads r (type.toByte :: bytes) t) : t.type = type := by
  obtain ⟨rest, hbytes⟩ := exists_of_reads h
  exact (toByte_inj (List.cons.inj hbytes).1).symm

omit [LuaNumber N] [DecidableEq F] in
theorem not_reads_nil {t : Tree N} : ¬ Reads r [] t := by
  intro h
  obtain ⟨rest, hbytes⟩ := exists_of_reads h
  cases hbytes

/-- What is not a table and is written as a variable has a tree. -/
theorem sends_of_reads (hnet : SameNet l r) {v : Val N F} (hleaf : ∀ ref, v ≠ .table ref)
    {stack : Stack N F} {i fuel : Nat} (hat : stack.at i = some v) {bytes : List UInt8}
    {stack' : Stack N F} (hsend : sendVariable l heap fuel stack i = ⟨bytes, .ok stack'⟩)
    {t : Tree N} (hreads : Reads r bytes t) : ∃ t : Tree N, Sends l r heap v t := by
  cases fuel with
  | zero => cases congrArg Sent.result hsend
  | succ fuel =>
      cases v with
      | nil => exact ⟨.nil, rfl⟩
      | boolean b => exact ⟨.boolean b, rfl⟩
      | number x =>
          rw [sendVariable_number fuel hat] at hsend
          cases hwrite : l.writeNumber x with
          | error e =>
              rw [hwrite] at hsend
              cases congrArg Sent.result hsend
          | ok number =>
              rw [hwrite] at hsend
              obtain rfl := congrArg Sent.bytes hsend
              have htype := type_of_reads hreads
              cases t with
              | number y =>
                  obtain ⟨number', hbytes, hread⟩ := hreads
                  obtain rfl := (List.cons.inj hbytes).2
                  exact ⟨.number y, x, number, rfl, hwrite, hread⟩
              | _ => cases htype
      | string s =>
          rw [sendVariable_string fuel hat] at hsend
          obtain rfl := congrArg Sent.bytes hsend
          have htype := type_of_reads hreads
          cases t with
          | string d =>
              obtain ⟨hbytes, hroom⟩ := hreads
              exact ⟨.string d, s, rfl,
                (writeString_text_iff hnet hroom).mp (List.cons.inj hbytes).2, hroom⟩
          | _ => cases htype
      | table ref => exact absurd rfl (hleaf ref)
      | function f =>
          obtain ⟨code, hdump⟩ : ∃ code, l.dump f = some code := by
            rw [sendVariable, hat] at hsend
            simp only at hsend
            cases hdump : l.dump f with
            | none =>
                rw [hdump] at hsend
                cases congrArg Sent.result hsend
            | some code => exact ⟨code, rfl⟩
          cases fuel with
          | zero =>
              rw [sendVariable, hat] at hsend
              simp only [hdump] at hsend
              cases congrArg Sent.result hsend
          | succ fuel =>
              rw [sendVariable_function fuel hat hdump] at hsend
              obtain rfl := congrArg Sent.bytes hsend
              have htype := type_of_reads hreads
              cases t with
              | function d =>
                  obtain ⟨hbytes, hroom⟩ := hreads
                  have hstring := List.append_cancel_right (List.cons.inj hbytes).2
                  exact ⟨.function d, f, code, rfl, hdump,
                    (writeString_text_iff hnet hroom).mp (List.cons.inj hstring).2, hroom⟩
              | _ => cases htype
      | helper h =>
          by_cases hhandle : l.handle = some h.handle
          · rw [sendVariable_helper fuel hat hhandle] at hsend
            obtain rfl := congrArg Sent.bytes hsend
            have htype := type_of_reads hreads
            cases t with
            | remote path =>
                obtain ⟨hbytes, hroom⟩ := hreads
                obtain ⟨hlen, hnames⟩ := (text_iff hnet hroom).mp (List.cons.inj hbytes).2
                exact ⟨.remote path, h, rfl, hhandle, hnames, hlen, hroom⟩
            | _ => cases htype
          · rw [sendVariable_other fuel hat hhandle] at hsend
            obtain rfl := congrArg Sent.bytes hsend
            have htype := type_of_reads hreads
            cases t with
            | remote path =>
                -- the length of the path is missing
                have hlength := congrArg List.length (List.cons.inj hreads.1).2
                rw [Link.text, List.length_append, length_writeU32, List.length_nil] at hlength
                omega
            | _ => cases htype
      | userdata id =>
          rw [sendVariable, hat] at hsend
          cases congrArg Sent.result hsend
      | thread id =>
          rw [sendVariable, hat] at hsend
          cases congrArg Sent.result hsend
      | lightuserdata id =>
          rw [sendVariable, hat] at hsend
          cases congrArg Sent.result hsend
      | rotable id =>
          rw [sendVariable, hat] at hsend
          obtain rfl : [] = bytes := congrArg Sent.bytes hsend
          exact absurd hreads not_reads_nil
      | lightfunction id =>
          rw [sendVariable, hat] at hsend
          obtain rfl : [] = bytes := congrArg Sent.bytes hsend
          exact absurd hreads not_reads_nil

/-- Nothing is written before an error exactly for what is unsupported. -/
theorem rejected_of_error {v : Val N F} {stack : Stack N F} {i fuel : Nat}
    (hat : stack.at i = some v) {e : Failure}
    (hsend : sendVariable l heap fuel stack i = ⟨[], .error e⟩) (hraised : e.Raised) :
    Rejected v := by
  cases fuel with
  | zero =>
      obtain rfl : Failure.deep = e := Except.error.inj (congrArg Sent.result hsend)
      exact hraised.elim
  | succ fuel =>
      cases v with
      | number x =>
          rw [sendVariable_number fuel hat] at hsend
          cases hwrite : l.writeNumber x with
          | error e =>
              rw [hwrite] at hsend
              cases congrArg Sent.bytes hsend
          | ok bytes =>
              rw [hwrite] at hsend
              cases congrArg Sent.bytes hsend
      | table ref =>
          rw [sendVariable_table fuel hat] at hsend
          cases htable : sendTable l heap fuel (.nil :: stack) i with
          | mk bytes result =>
              rw [htable] at hsend
              cases result with
              | error e => cases congrArg Sent.bytes hsend
              | ok stack' => cases congrArg Sent.bytes hsend
      | function f =>
          rw [sendVariable, hat] at hsend
          cases congrArg Sent.bytes hsend
      | helper h =>
          rw [sendVariable, hat] at hsend
          cases congrArg Sent.bytes hsend
      | userdata id => trivial
      | thread id => trivial
      | lightuserdata id => trivial
      | _ =>
          rw [sendVariable, hat] at hsend
          cases congrArg Sent.result hsend

/-- What is unsupported leads to nothing. -/
theorem eq_of_reaches {v v' : Val N F} (hv : Rejected v) (h : Reaches heap v v') : v = v' := by
  induction h with
  | self => rfl
  | key _ _ _ ih =>
      rw [ih] at hv
      exact hv.elim
  | value _ _ _ ih =>
      rw [ih] at hv
      exact hv.elim

/-- What is unsupported raises an error before anything is written. -/
theorem sendVariable_rejected {v : Val N F} (h : Rejected v) {stack : Stack N F} {i : Nat}
    (hat : stack.at i = some v) (fuel : Nat) :
    sendVariable l heap (fuel + 1) stack i = ⟨[], .error .luaError⟩ := by
  rw [sendVariable, hat]
  cases v with
  | userdata id => rfl
  | thread id => rfl
  | lightuserdata id => rfl
  | _ => exact h.elim

/-! ## All of what a value leads to -/

theorem Reaches.trans {v₁ v₂ v₃ : Val N F} (h : Reaches heap v₁ v₂) (h' : Reaches heap v₂ v₃) :
    Reaches heap v₁ v₃ := by
  induction h' with
  | self => exact h
  | key _ hheap hmem ih => exact ih.key hheap hmem
  | value _ hheap hmem ih => exact ih.value hheap hmem

/-- The loop over the entries has succeeded. -/
theorem sendTable_of_variable_ok {ref : Nat} {stack : Stack N F} {i fuel : Nat}
    (hat : stack.at i = some (.table ref)) {stack' : Stack N F}
    (h : (sendVariable l heap (fuel + 1) stack i).result = .ok stack') :
    ∃ stack₁, (sendTable l heap fuel (.nil :: stack) i).result = .ok stack₁ := by
  rw [sendVariable_table fuel hat] at h
  cases hsend : sendTable l heap fuel (.nil :: stack) i with
  | mk bytes result =>
      rw [hsend] at h
      cases result with
      | error e => cases h
      | ok stack₁ => exact ⟨stack₁, rfl⟩

/-- The table exists. -/
theorem exists_of_sendTable_ok {ref : Nat} {stack : Stack N F} {i fuel : Nat} {key : Val N F}
    (hat : stack.at i = some (.table ref)) {stack' : Stack N F}
    (h : (sendTable l heap fuel (key :: stack) i).result = .ok stack') :
    ∃ t, heap[ref]? = some t := by
  cases fuel with
  | zero => cases h
  | succ fuel =>
      obtain ⟨ref', hat', hturn⟩ := sendTable_ok h
      obtain rfl : ref = ref' := by
        rw [Stack.at_push hat key] at hat'
        exact Val.table.inj (Option.some.inj hat')
      cases hheap : heap[ref]? with
      | none =>
          rw [hheap] at hturn
          obtain ⟨hnone, -⟩ | ⟨k, v, stack₁, stack₂, hsome, -⟩ := hturn
          · cases hnone
          · cases hsome
      | some t => exact ⟨t, rfl⟩

/-- The key and the value of an entry have trees. -/
theorem entrySends {entry : Val N F × Val N F} :
    ∀ {es : Entries N} {entries : List (Val N F × Val N F)}, EntriesSend l r heap entries es →
      entry ∈ entries → ∃ k v : Tree N, Sends l r heap entry.1 k ∧ Sends l r heap entry.2 v
  | .nil, _, h, hmem => by
      obtain rfl := h
      cases hmem
  | .cons k v rest, _, h, hmem => by
      obtain ⟨key, value, later, rfl, hkey, hvalue, hlater⟩ := h
      rcases List.mem_cons.mp hmem with rfl | hmem
      · exact ⟨k, v, hkey, hvalue⟩
      · exact entrySends hlater hmem

/-- The keys and the values of a table with a tree have trees. -/
theorem entry_sends {ref : Nat} (h : ∃ t : Tree N, Sends l r heap (.table ref) t)
    {t : Table N F} (hheap : heap[ref]? = some t) {entry : Val N F × Val N F}
    (hmem : entry ∈ t.entries) :
    ∃ k v : Tree N, Sends l r heap entry.1 k ∧ Sends l r heap entry.2 v := by
  obtain ⟨tree, h⟩ := h
  cases tree with
  | table es =>
      obtain ⟨ref', t', href, hheap', hentries⟩ := h
      obtain rfl : ref = ref' := Val.table.inj href
      obtain rfl : t = t' := Option.some.inj (hheap.symm.trans hheap')
      exact entrySends hentries hmem
  | nil => cases h
  | boolean b => cases h
  | number y =>
      obtain ⟨x, bytes, h, -⟩ := h
      cases h
  | string d =>
      obtain ⟨s, h, -⟩ := h
      cases h
  | function d =>
      obtain ⟨f, code, h, -⟩ := h
      cases h
  | remote path =>
      obtain ⟨helper, h, -⟩ := h
      cases h

/-- Everything that a value with a tree leads to has a tree. -/
theorem sends_of_reaches {v v' : Val N F} (h : Reaches heap v v')
    (hv : ∃ t : Tree N, Sends l r heap v t) : ∃ t : Tree N, Sends l r heap v' t := by
  induction h with
  | self => exact hv
  | key _ hheap hmem ih =>
      obtain ⟨k, -, hk, -⟩ := entry_sends ih hheap hmem
      exact ⟨k, hk⟩
  | value _ hheap hmem ih =>
      obtain ⟨-, v, -, hv⟩ := entry_sends ih hheap hmem
      exact ⟨v, hv⟩

section

variable [DecidableEq F']

/-- **A table** all of whose values are written whole or not at all has a tree, if it is written. -/
theorem sends_of_ok (hnet : SameNet l r) (fuel : Nat) :
    (∀ (v : Val N F) (stack : Stack N F) (i : Nat) stack', stack.at i = some v →
      (∀ v', Reaches heap v v' → AllOrNothing l r heap v') →
      (sendVariable l heap fuel stack i).result = .ok stack' → ∃ t : Tree N, Sends l r heap v t) ∧
    ∀ (ref : Nat) (t : Table N F) (before entries : List (Val N F × Val N F)) (key : Val N F)
      (stack : Stack N F) (i : Nat) stack', heap[ref]? = some t → t.entries = before ++ entries →
      t.next key = some entries.head? → stack.at i = some (.table ref) →
      (∀ v', Reaches heap (.table ref) v' → AllOrNothing l r heap v') →
      (sendTable l heap fuel (key :: stack) i).result = .ok stack' →
      ∃ es : Entries N, EntriesSend l r heap entries es := by
  induction fuel with
  | zero => exact ⟨fun _ _ _ _ _ _ h => (by cases h),
      fun _ _ _ _ _ _ _ _ _ _ _ _ _ h => (by cases h)⟩
  | succ fuel ih =>
      obtain ⟨hvariable, htable⟩ := ih
      constructor
      · intro v stack i stack' hat hall hok
        by_cases hleaf : ∀ ref, v ≠ .table ref
        · obtain ⟨fuel', ⟨e, hsend, hraised⟩ | ⟨bytes, hsend, t, hreads, -⟩⟩ :=
            hall v .self stack i hat
          · have hrejected := rejected_of_error hat hsend hraised
            rw [sendVariable_rejected hrejected hat] at hok
            cases hok
          · exact sends_of_reads hnet hleaf hat hsend hreads
        · push Not at hleaf
          obtain ⟨ref, rfl⟩ := hleaf
          obtain ⟨stack₁, hsend⟩ := sendTable_of_variable_ok hat hok
          obtain ⟨t, hheap⟩ := exists_of_sendTable_ok hat hsend
          obtain ⟨es, hentries⟩ := htable ref t [] t.entries .nil stack i stack₁ hheap rfl
            (next_nil t) hat hall hsend
          exact ⟨.table es, ref, t, rfl, hheap, hentries⟩
      · intro ref t before entries key stack i stack' hheap hentries hnext hat hall hok
        obtain ⟨ref', hat', hturn⟩ := sendTable_ok hok
        obtain rfl : ref = ref' := by
          rw [Stack.at_push hat key] at hat'
          exact Val.table.inj (Option.some.inj hat')
        rw [hheap, Option.bind_some, hnext] at hturn
        cases entries with
        | nil => exact ⟨.nil, rfl⟩
        | cons entry later =>
            obtain ⟨hnone, -⟩ | ⟨k, v, stack₁, stack₂, hentry, hkey, hvalue, hlater⟩ := hturn
            · cases hnone
            · obtain rfl : entry = (k, v) := Option.some.inj (Option.some.inj hentry)
              have hmem : (k, v) ∈ t.entries := by
                rw [hentries]
                exact List.mem_append_right _ List.mem_cons_self
              obtain rfl := (send_keeps l heap fuel).1 _ _ _ hkey
              obtain rfl := (send_keeps l heap fuel).1 _ _ _ hvalue
              obtain ⟨tk, hk⟩ := hvariable k _ _ _ (Stack.at_push (Stack.at_top k stack) v)
                (fun v' h => hall v' ((Reaches.key .self hheap hmem).trans h)) hkey
              obtain ⟨tv, hv⟩ := hvariable v _ _ _ (Stack.at_top v (k :: stack))
                (fun v' h => hall v' ((Reaches.value .self hheap hmem).trans h)) hvalue
              obtain ⟨es, hes⟩ := htable ref t (before ++ [(k, v)]) later k stack i stack' hheap
                (by rw [hentries, List.append_assoc]; rfl) (next_key hentries) hat hall hlater
              exact ⟨.cons tk tv es, k, v, later, rfl, hk, hv, hes⟩

theorem oneVariable_of_reads {bytes : List UInt8} {t : Tree N} (h : Reads r bytes t) :
    @OneVariable N F' _ _ r bytes :=
  ⟨t, h, fun _ vm lua stack rest fuel hfuel =>
    readVariable_of_reads r vm t bytes lua stack rest fuel h hfuel⟩

end

/-- `{ coroutine.create( f ) }`. -/
def threadHeap : Heap Nat Unit :=
  [⟨[(.number 1, .thread 0)], by decide, by decide, by decide⟩]

end LuaRpc
