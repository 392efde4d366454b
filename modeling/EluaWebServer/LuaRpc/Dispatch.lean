import EluaWebServer.LuaRpc.Variable

/-!
# The server reads a command

`read_cmd_call`, `read_cmd_get` and `read_cmd_newindex`, and the block of
`rpc_dispatch_helper` that reads a command when the accepting transport is
open.
-/

namespace LuaRpc

variable {N F R : Type} [LuaNumber N] [DecidableEq F]

/-- The commands. -/
inductive RpcCmd where
  | call
  | get
  | con
  | newindex
  deriving DecidableEq

def RpcCmd.toByte : RpcCmd → UInt8
  | .call => 1
  | .get => 2
  | .con => 3
  | .newindex => 4

def RpcCmd.ofByte (b : UInt8) : Option RpcCmd :=
  if b = 1 then some .call
  else if b = 2 then some .get
  else if b = 3 then some .con
  else if b = 4 then some .newindex
  else none

@[simp] theorem cmd_ofByte_toByte (c : RpcCmd) : RpcCmd.ofByte c.toByte = some c := by
  cases c <;> rfl

def RPC_READY : UInt8 := 64

/-- The codes of `lua_pcall`. -/
def PcallError.code : PcallError → Nat
  | .run => 2
  | .mem => 4
  | .err => 5

/-- `"undefined function: "`. -/
def undefinedFunction : List UInt8 :=
  [117, 110, 100, 101, 102, 105, 110, 101, 100, 32, 102, 117, 110, 99, 116, 105, 111, 110, 58, 32]

/-- `LUA_ISCALLABLE`. -/
def Val.isCallable : Val N F → Bool
  | .function _ => true
  | .lightfunction _ => true
  | _ => false

/-- `lua_tolstring`; what is no string and no number gives a null pointer. -/
def Val.toString? : Val N F → Option (List UInt8)
  | .string s => some s
  | .number x => some (LuaNumber.str x)
  | _ => none

/-- A string up to its first zero. -/
def cString (s : List UInt8) : List UInt8 := s.takeWhile (· ≠ 0)

/-- Some variables are read, and left on the stack. -/
def readVariables (l : Link N F) (vm : Vm N F R) (fuel : Nat) :
    Nat → Conn N F R → Except Failure (Conn N F R)
  | 0, c => .ok c
  | n + 1, c => do
      let (_, c) ← readVariable l vm fuel c
      readVariables l vm fuel n c

/-- Some variables of the stack are written, from an index on. -/
def writeVariables (l : Link N F) (heap : Heap N F) (fuel : Nat) :
    Nat → Stack N F → Nat → Except Failure (List UInt8)
  | 0, _, _ => .ok []
  | n + 1, stack, i => do
      let (bytes, stack) ← writeVariable l heap fuel stack i
      let later ← writeVariables l heap fuel n stack (i + 1)
      return bytes ++ later

/-- The reply with an error: its code, and a message. -/
def Link.writeError (l : Link N F) (code : Nat) (len : Nat) (msg : List UInt8) : List UInt8 :=
  1 :: (l.writeU32 code ++ l.writeU32 len ++ msg)

/-- `lua_settop( L, 0 )`. -/
def Conn.clear (c : Conn N F R) : Conn N F R := { c with stack := [] }

/-- `read_cmd_call`: what is written, and what is left. -/
def readCmdCall (l : Link N F) (vm : Vm N F R) (fuel : Nat) (c : Conn N F R) :
    Except Failure (List UInt8 × Conn N F R) := do
  let (funcname, input) ← l.readString c.input
  let (f, lua) ← lookup vm (strtok [] funcname).1 c.lua
  let stackpos := c.stack.length
  let (nargs, input) ← l.readU32 input
  -- the number is an `int`
  let c ← readVariables l vm fuel (if nargs < 2 ^ 31 then nargs else 0)
    ⟨lua, f :: c.stack, input⟩
  if f.isCallable then
    if nargs < 2 ^ 31 then
      match c.stack.drop nargs with
      | [] => .error .undefined
      | g :: below =>
          match vm.pcall g (c.stack.take nargs).reverse c.lua with
          | (.error code object, lua) =>
              let errmsg := object.toString?.getD []
              return (l.writeError code.code errmsg.length (writeString errmsg),
                Conn.clear { c with lua := lua })
          | (.values vs, lua) =>
              let stack := vs.reverse ++ below
              let nret := stack.length - stackpos
              let bytes ← writeVariables l lua.heap fuel nret stack (stackpos + 1)
              return (0 :: (l.writeU32 nret ++ bytes), Conn.clear { c with lua := lua })
    else .error .undefined
  else
    -- the name is as `strtok` left it
    return (l.writeError PcallError.run.code (undefinedFunction.length + funcname.length)
      (undefinedFunction ++ writeString (strtok [] funcname).2), c.clear)

/-- `read_cmd_get`. -/
def readCmdGet (l : Link N F) (vm : Vm N F R) (fuel : Nat) (c : Conn N F R) :
    Except Failure (List UInt8 × Conn N F R) := do
  let (funcname, input) ← l.readString c.input
  let (v, lua) ← lookup vm (strtok [] funcname).1 c.lua
  let stack := v :: c.stack
  let (bytes, _) ← writeVariable l lua.heap fuel stack stack.length
  return (bytes, ⟨lua, [], input⟩)

/-- `read_cmd_newindex`. -/
def readCmdNewindex (l : Link N F) (vm : Vm N F R) (fuel : Nat) (c : Conn N F R) :
    Except Failure (List UInt8 × Conn N F R) := do
  let (funcname, input) ← l.readString c.input
  if 0 < (cString funcname).length then
    let (t, lua) ← lookup vm (strtok [] funcname).1 c.lua
    let c ← readVariables l vm fuel 2 ⟨lua, t :: c.stack, input⟩
    match c.stack with
    | value :: key :: t :: _ =>
        let lua ← vm.setTable t key value c.lua
        return ([0], Conn.clear { c with lua := lua })
    | _ => .error .undefined
  else
    let c ← readVariables l vm fuel 2 { c with input := input }
    match c.stack with
    | value :: key :: _ =>
        match key.toString? with
        -- the name of a global variable may not be a null pointer
        | none => .error .undefined
        | some name =>
            let lua ← vm.setGlobal (cString name) value c.lua
            return ([0], Conn.clear { c with lua := lua })
    | _ => .error .undefined

/-- What the block leaves. -/
structure Dispatched (N F R : Type) [LuaNumber N] [DecidableEq F] where
  output : List UInt8
  conn : Conn N F R
  linkErrs : Nat

/-- The inner `Try` of `rpc_dispatch_helper`.  Renegotiation is a parameter. -/
def dispatch (l : Link N F) (vm : Vm N F R)
    (negotiate : Conn N F R → Except Failure (List UInt8 × Conn N F R)) (fuel : Nat)
    (c : Conn N F R) : Except Failure (Dispatched N F R) := do
  let (cmd, input) ← readU8 c.input
  let c := { c with input := input }
  match RpcCmd.ofByte cmd with
  | some .call =>
      let (reply, c) ← readCmdCall l vm fuel c
      return ⟨RPC_READY :: reply, c, 0⟩
  | some .get =>
      let (reply, c) ← readCmdGet l vm fuel c
      return ⟨RPC_READY :: reply, c, 0⟩
  | some .con =>
      let (answer, c) ← negotiate c
      return ⟨answer, c, 0⟩
  | some .newindex =>
      let (reply, c) ← readCmdNewindex l vm fuel c
      return ⟨RPC_READY :: reply, c, 0⟩
  | none => .error (.thrown false)

end LuaRpc
