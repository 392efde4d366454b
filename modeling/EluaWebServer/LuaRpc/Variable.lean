import EluaWebServer.LuaRpc.Number
import EluaWebServer.LuaRpc.Value

/-!
# Writing and reading variables

`write_variable` and `read_variable` over an explicit Lua stack.  What they
need of the interpreter, apart from tables, is a parameter.  How deep the C
stack may get is counted down along the recursion and the loops, and what a
function puts on it with `alloca` has a limit of its own.
-/

namespace LuaRpc

open Bytes

/-- What keeps a call from returning. -/
inductive Failure where
  /-- `lua_error`. -/
  | luaError
  /-- `Throw`, of a fatal or a nonfatal exception. -/
  | thrown (fatal : Bool)
  /-- The C stack is used up. -/
  | deep
  /-- What the code does has no meaning in C. -/
  | undefined
  deriving DecidableEq, Repr

/-- The codes of `lua_pcall`. -/
inductive PcallError where
  | run
  | mem
  | err

/-- The type bytes of variables. -/
inductive RpcType where
  | nil
  | number
  | boolean
  | string
  | table
  | tableEnd
  | function
  | functionEnd
  | remote
  deriving DecidableEq

def RpcType.toByte : RpcType → UInt8
  | .nil => 0
  | .number => 1
  | .boolean => 2
  | .string => 3
  | .table => 4
  | .tableEnd => 5
  | .function => 6
  | .functionEnd => 7
  | .remote => 8

def RpcType.ofByte (b : UInt8) : Option RpcType :=
  if b = 0 then some .nil
  else if b = 1 then some .number
  else if b = 2 then some .boolean
  else if b = 3 then some .string
  else if b = 4 then some .table
  else if b = 5 then some .tableEnd
  else if b = 6 then some .function
  else if b = 7 then some .functionEnd
  else if b = 8 then some .remote
  else none

@[simp] theorem ofByte_toByte (t : RpcType) : RpcType.ofByte t.toByte = some t := by
  cases t <;> rfl

/-- The Lua stack, its top first. -/
abbrev Stack (N F : Type) := List (Val N F)

/-- The value at an absolute index. -/
def Stack.at {N F : Type} (stack : Stack N F) (i : Nat) : Option (Val N F) :=
  if i = 0 ∨ stack.length < i then none else stack[stack.length - i]?

theorem Stack.at_top {N F : Type} (v : Val N F) (stack : Stack N F) :
    Stack.at (v :: stack) (stack.length + 1) = some v := by
  rw [Stack.at, if_neg (by simp), List.length_cons, Nat.sub_self]
  rfl

/-- What is below keeps its index. -/
theorem Stack.at_push {N F : Type} {stack : Stack N F} {i : Nat} {v : Val N F}
    (h : stack.at i = some v) (u : Val N F) : Stack.at (u :: stack) i = some v := by
  rw [Stack.at] at h ⊢
  split at h
  · cases h
  · rename_i hi
    have hlen : (u :: stack).length - i = stack.length - i + 1 := by
      rw [List.length_cons]
      omega
    rw [if_neg (by rw [List.length_cons]; omega), hlen, List.getElem?_cons_succ]
    exact h

/-- One end of a connection. -/
structure Link (N F : Type) where
  tpt : Transport
  /-- `transport_write_number`. -/
  writeNumber : N → Except Failure (List UInt8)
  /-- `transport_read_number`. -/
  readNumber : List UInt8 → Except Failure (N × List UInt8)
  /-- `luaU_dump` of a function, if it has code to dump. -/
  dump : F → Option (List UInt8)
  /-- The handle of a client. -/
  handle : Option Nat
  /-- The bytes of C stack that there are for `alloca`. -/
  room : Nat
  /-- An `int` counts what is on a C stack. -/
  room_small : room + 64 ≤ 2 ^ 31

/-- The numbers of an end, by their bits, on a connection. -/
def Link.ofEndpoint {F : Type} (e : Endpoint) (tpt : Transport) (dump : F → Option (List UInt8))
    (handle : Option Nat) (room : Nat) (room_small : room + 64 ≤ 2 ^ 31) : Link Nat F where
  tpt := tpt
  writeNumber := fun x =>
    match transportWriteNumber e tpt x with
    | some bytes => .ok bytes
    | none => .error .undefined
  readNumber := fun input =>
    if input.length < tpt.lnumBytes then .error (.thrown false)
    else
      match transportReadNumber e tpt input with
      | some read => .ok read
      | none => .error .undefined
  dump := dump
  handle := handle
  room := room
  room_small := room_small

/-- The state of the interpreter. -/
structure Lua (N F R : Type) [LuaNumber N] [DecidableEq F] where
  heap : Heap N F
  rest : R

/-- How a protected call ends. -/
inductive Outcome (N F : Type) where
  | values (vs : List (Val N F))
  | error (code : PcallError) (object : Val N F)

/-- What the code uses of the interpreter. -/
structure Vm (N F R : Type) [LuaNumber N] [DecidableEq F] where
  /-- `luaL_loadbuffer`: a function, or a message. -/
  load : List UInt8 → Lua N F R → Val N F × Lua N F R
  /-- `lua_getglobal`. -/
  getGlobal : List UInt8 → Lua N F R → Except Failure (Val N F × Lua N F R)
  /-- `lua_getfield`. -/
  getField : Val N F → List UInt8 → Lua N F R → Except Failure (Val N F × Lua N F R)
  /-- `lua_settable`. -/
  setTable : Val N F → Val N F → Val N F → Lua N F R → Except Failure (Lua N F R)
  /-- `lua_setglobal`. -/
  setGlobal : List UInt8 → Val N F → Lua N F R → Except Failure (Lua N F R)
  /-- `lua_pcall`. -/
  pcall : Val N F → List (Val N F) → Lua N F R → Outcome N F × Lua N F R

variable {N F R : Type} [LuaNumber N] [DecidableEq F]

/-! ## Writing -/

/-- `transport_write_u32`. -/
def Link.writeU32 (l : Link N F) (n : Nat) : List UInt8 :=
  l.tpt.order (native l.tpt.locLittle 4 n)

/-- `transport_write_string`: the length is an `int`, and nothing is written if
it is negative. -/
def writeString (s : List UInt8) : List UInt8 :=
  if s.length % 2 ^ 32 < 2 ^ 31 then s.take (s.length % 2 ^ 32) else []

/-- The dot between two names. -/
def dot : UInt8 := 46

/-- The helpers that `helper_remote_index` replays before the last one,
outermost first; `nparents` is a byte. -/
def Helper.hstack (h : Helper) : List (List UInt8) :=
  h.parents.drop (h.parents.length - h.parents.length % 256)

/-- The loop that goes from parent to parent, and adds up lengths. -/
def replayLen (hstack : List (List UInt8)) : Nat → Nat → Nat
  | 0, len => len
  | i + 1, len => replayLen hstack i (len + ((hstack[i + 1]?.getD []).length + 1))

/-- The length that `helper_remote_index` announces. -/
def Helper.len (h : Helper) : Nat :=
  let nparents := h.hstack.length
  if 0 < nparents then
    replayLen h.hstack (nparents - 1)
      (h.funcname.length + ((h.hstack[nparents - 1]?.getD []).length + 1))
  else h.funcname.length

/-- `helper_remote_index`. -/
def Link.helperRemoteIndex (l : Link N F) (h : Helper) : List UInt8 :=
  l.writeU32 h.len ++ (h.hstack.flatMap fun name => name ++ [dot]) ++ h.funcname

mutual

/-- `write_table`, after nil has been pushed: one more turn of the loop. -/
def writeTable (l : Link N F) (heap : Heap N F) :
    Nat → Stack N F → Nat → Except Failure (List UInt8 × Stack N F)
  | 0, _, _ => .error .deep
  | fuel + 1, stack, tableIndex =>
      match stack, stack.at tableIndex with
      | key :: below, some (.table ref) =>
          match heap[ref]?.bind fun t => t.next key with
          | none => .error .luaError
          | some none => .ok ([], below)
          | some (some (k, v)) => do
              let stack := v :: k :: below
              let (keyBytes, stack) ← writeVariable l heap fuel stack (stack.length - 1)
              let (valueBytes, stack) ← writeVariable l heap fuel stack stack.length
              let (later, stack) ← writeTable l heap fuel stack.tail tableIndex
              return (keyBytes ++ valueBytes ++ later, stack)
      | _, _ => .error .undefined

/-- `write_variable`: the bytes written, and the stack after it. -/
def writeVariable (l : Link N F) (heap : Heap N F) :
    Nat → Stack N F → Nat → Except Failure (List UInt8 × Stack N F)
  | 0, _, _ => .error .deep
  | fuel + 1, stack, varIndex =>
      match stack.at varIndex with
      | some (.number x) => do
          let bytes ← l.writeNumber x
          return (RpcType.number.toByte :: bytes, stack)
      | some (.string s) =>
          return (RpcType.string.toByte :: (l.writeU32 s.length ++ writeString s), stack)
      | some (.table _) => do
          let (bytes, stack) ← writeTable l heap fuel (.nil :: stack) varIndex
          return (RpcType.table.toByte :: (bytes ++ [RpcType.tableEnd.toByte]), stack)
      | some .nil => return ([RpcType.nil.toByte], stack)
      | some (.boolean b) => return ([RpcType.boolean.toByte, b.toUInt8], stack)
      | some (.function f) =>
          -- `write_function`
          match l.dump f with
          | none => .error .undefined
          | some code => do
              let stack := .string code :: .function f :: stack
              let (bytes, stack) ← writeVariable l heap fuel stack stack.length
              return (RpcType.function.toByte :: (bytes ++ [RpcType.functionEnd.toByte]),
                stack.drop 2)
      | some (.helper h) =>
          -- the names go to the handle of the helper
          if l.handle = some h.handle then
            return (RpcType.remote.toByte :: l.helperRemoteIndex h, stack)
          else return ([RpcType.remote.toByte], stack)
      | some (.userdata _) => .error .luaError
      | some (.thread _) => .error .luaError
      | some (.lightuserdata _) => .error .luaError
      | some (.rotable _) => return ([], stack)
      | some (.lightfunction _) => return ([], stack)
      | none => return ([], stack)

end

/-! ## Reading -/

/-- `transport_read_buffer`. -/
def readBuffer (n : Nat) (input : List UInt8) : Except Failure (List UInt8 × List UInt8) :=
  if input.length < n then .error (.thrown false) else .ok (input.take n, input.drop n)

/-- `transport_read_u8`. -/
def readU8 (input : List UInt8) : Except Failure (UInt8 × List UInt8) :=
  match input with
  | [] => .error (.thrown false)
  | b :: rest => .ok (b, rest)

/-- `transport_read_u32`. -/
def Link.readU32 (l : Link N F) (input : List UInt8) : Except Failure (Nat × List UInt8) := do
  let (bytes, rest) ← readBuffer 4 input
  return (ofNative l.tpt.locLittle (l.tpt.order bytes), rest)

/-- A length and as many bytes, which go to the C stack. -/
def Link.readString (l : Link N F) (input : List UInt8) :
    Except Failure (List UInt8 × List UInt8) := do
  let (len, rest) ← l.readU32 input
  if l.room ≤ len then .error .deep else readBuffer len rest

/-- `strtok` with dots until there is no token left, on a string with a token
begun: the tokens, and what the calls make of the string. -/
def strtok (token : List UInt8) : List UInt8 → List (List UInt8) × List UInt8
  | [] => ([token].filter (· ≠ []), [])
  | b :: s =>
      if b = 0 then ([token].filter (· ≠ []), b :: s)
      else if b = dot then
        let later := strtok [] s
        if token = [] then (later.1, b :: later.2) else (token :: later.1, 0 :: later.2)
      else
        let later := strtok (token ++ [b]) s
        (later.1, b :: later.2)

/-- The loop of `lua_getfield` over the tokens that are left. -/
def getFields (vm : Vm N F R) (v : Val N F) :
    List (List UInt8) → Lua N F R → Except Failure (Val N F × Lua N F R)
  | [], lua => .ok (v, lua)
  | token :: tokens, lua => do
      let (v, lua) ← vm.getField v token lua
      getFields vm v tokens lua

/-- What a name with dots stands for.  The name of a global variable may not be
a null pointer. -/
def lookup (vm : Vm N F R) (tokens : List (List UInt8)) (lua : Lua N F R) :
    Except Failure (Val N F × Lua N F R) :=
  match tokens with
  | [] => .error .undefined
  | token :: tokens => do
      let (v, lua) ← vm.getGlobal token lua
      getFields vm v tokens lua

/-- The state of a reader. -/
structure Conn (N F R : Type) [LuaNumber N] [DecidableEq F] where
  lua : Lua N F R
  stack : Stack N F
  input : List UInt8

/-- A value is pushed after the input has been read up to `input`. -/
def Conn.push (c : Conn N F R) (v : Val N F) (input : List UInt8) : Conn N F R :=
  { c with stack := v :: c.stack, input := input }

/-- A table is made. -/
def Lua.newTable (lua : Lua N F R) : Lua N F R := { lua with heap := lua.heap ++ [.empty] }

/-- `lua_newtable`. -/
def Conn.newTable (c : Conn N F R) : Conn N F R :=
  { c with lua := c.lua.newTable, stack := .table c.lua.heap.length :: c.stack }

/-- An assignment to a key of a table, without metamethods. -/
def Lua.rawset (lua : Lua N F R) (ref : Nat) (k v : Val N F) : Except Failure (Lua N F R) :=
  match lua.heap[ref]? with
  | none => .error .undefined
  | some t =>
      match t.rawset k v with
      | none => .error .luaError
      | some t => .ok { lua with heap := lua.heap.set ref t }

/-- `lua_rawset`. -/
def Conn.rawset (c : Conn N F R) (tableIndex : Nat) : Except Failure (Conn N F R) :=
  match c.stack.at tableIndex, c.stack with
  | some (.table ref), v :: k :: below => do
      let lua ← c.lua.rawset ref k v
      return { c with lua := lua, stack := below }
  | _, _ => .error .undefined

/-- The body of the loop of `read_function` after a variable has been read: the
string on the top is loaded. -/
def Conn.load (vm : Vm N F R) (c : Conn N F R) : Except Failure (Conn N F R) :=
  match c.stack with
  | .string s :: below =>
      let (f, lua) := vm.load s c.lua
      .ok { c with lua := lua, stack := f :: below }
  | .number x :: below =>
      let (f, lua) := vm.load (LuaNumber.str x) c.lua
      .ok { c with lua := lua, stack := f :: below }
  | _ => .error .luaError

/-- `read_index`. -/
def readIndex (l : Link N F) (vm : Vm N F R) (c : Conn N F R) : Except Failure (Conn N F R) := do
  let (funcname, input) ← l.readString c.input
  let (v, lua) ← lookup vm (strtok [] funcname).1 c.lua
  return { c with lua := lua, stack := v :: c.stack, input := input }

mutual

/-- The loop of `read_table`. -/
def readTable (l : Link N F) (vm : Vm N F R) :
    Nat → Nat → Conn N F R → Except Failure (Conn N F R)
  | 0, _, _ => .error .deep
  | fuel + 1, tableIndex, c => do
      let (normal, c) ← readVariable l vm fuel c
      if normal then
        let (_, c) ← readVariable l vm fuel c
        let c ← c.rawset tableIndex
        readTable l vm fuel tableIndex c
      else return c

/-- `read_function`. -/
def readFunction (l : Link N F) (vm : Vm N F R) :
    Nat → Conn N F R → Except Failure (Conn N F R)
  | 0, _ => .error .deep
  | fuel + 1, c => do
      let (normal, c) ← readVariable l vm fuel c
      if normal then
        let c ← c.load vm
        readFunction l vm fuel c
      else return c

/-- `read_variable`: whether a normal variable was read. -/
def readVariable (l : Link N F) (vm : Vm N F R) :
    Nat → Conn N F R → Except Failure (Bool × Conn N F R)
  | 0, _ => .error .deep
  | fuel + 1, c => do
      let (type, input) ← readU8 c.input
      match RpcType.ofByte type with
      | some .nil => return (true, c.push .nil input)
      | some .boolean =>
          let (b, input) ← readU8 input
          return (true, c.push (.boolean (b ≠ 0)) input)
      | some .number =>
          let (x, input) ← l.readNumber input
          return (true, c.push (.number x) input)
      | some .string =>
          let (s, input) ← l.readString input
          return (true, c.push (.string s) input)
      | some .table =>
          let c := Conn.newTable { c with input := input }
          let c ← readTable l vm fuel c.stack.length c
          return (true, c)
      | some .tableEnd => return (false, { c with input := input })
      | some .function =>
          let c ← readFunction l vm fuel { c with input := input }
          return (true, c)
      | some .functionEnd => return (false, { c with input := input })
      | some .remote =>
          let c ← readIndex l vm { c with input := input }
          return (true, c)
      | none => .error (.thrown true)

end

end LuaRpc
