import EluaWebServer.LuaChunk.Dump

/-!
# Loading chunks

`luaU_undump` on a machine with an `int` of four bytes.  The header tells whether bytes are
swapped, the size of the numbers of the chunk, which is not checked, and whether they are
integers to be converted.
-/

namespace LuaChunk

open Bytes Ieee Stream

/-- A machine that loads: its byte order and its `lua_Number`. -/
structure Platform where
  little : Bool
  size : Nat
  integral : Bool
  armFpa : Bool
  size_ok : size = 4 ∨ size = 8

/-- Why a chunk is not loaded.  A string with a negative size gets no memory, and a number of
a size that is not handled is not assigned. -/
inductive LoadError where
  | unexpectedEnd
  | badSize
  | badInteger
  | badConstant
  | badHeader
  | badCode
  | codeTooDeep
  | memory
  | unassigned
  deriving DecidableEq, Repr

structure LoadState where
  swap : Bool
  numsize : UInt8
  toflt : Bool
  deriving DecidableEq, Repr

abbrev Load := Reader LoadError

def loadBlock (size : Nat) : Load (List UInt8) := fun z =>
  if z.length < size then .error .unexpectedEnd else .ok (z.take size, z.drop size)

/-- The `n` elements of a block. -/
def elements (size : Nat) : Nat → List UInt8 → List (List UInt8)
  | 0, _ => []
  | n + 1, b => b.take size :: elements size n (b.drop size)

section

variable (platform : Platform) (S : LoadState)

/-- The bytes of `n` elements, each in the byte order of the machine. -/
def loadMem (n size : Nat) : Load (List (List UInt8)) := do
  let b ← loadBlock (n * size)
  if S.swap then
    if size = 1 ∨ size = 2 ∨ size = 4 ∨ size = 8 then
      pure ((elements size n b).map List.reverse)
    else throw .badSize
  else pure (elements size n b)

/-- `LoadVar`: the bits of a variable. -/
def loadVar (size : Nat) : Load Nat := do
  let bs ← loadMem S 1 size
  pure (ofNative platform.little bs.flatten)

def loadChar : Load UInt8 := do
  let x ← loadVar platform S 1
  pure (UInt8.ofNat x)

def loadInt : Load Nat := do
  let x ← loadVar platform S 4
  if signed 4 x < 0 then throw .badInteger else pure x

/-- The bits of the `lua_Number` that is an integer of `size` bytes. -/
def loadInteger (size : Nat) : Load Nat := do
  let y ← loadVar platform S size
  pure (ofInt (format platform.size) (signed size y))

/-- The bits of a number; with FPA the words of a double are the other way round. -/
def loadNumber : Load Nat :=
  if S.toflt then
    match S.numsize with
    | 1 => loadInteger platform S 1
    | 2 => loadInteger platform S 2
    | 4 => loadInteger platform S 4
    | 8 => loadInteger platform S 8
    | _ => throw .unassigned
  else do
    let bs ← loadMem S 1 platform.size
    if platform.armFpa ∧ platform.size = 8 ∧ platform.integral = false then
      pure (ofNative platform.little (swapHalves bs.flatten))
    else pure (ofNative platform.little bs.flatten)

def loadString : Load (Option (List UInt8)) := do
  let size ← loadVar platform S 4
  if size = 0 then pure none
  else if signed 4 size < 0 then throw .memory
  else do
    let s ← loadBlock size
    pure (some (s.take (size - 1)))

def loadCode : Load (List UInt32) := do
  let n ← loadInt platform S
  let bs ← loadMem S n 4
  pure (bs.map fun b => UInt32.ofNat (ofNative platform.little b))

/-- A turn of the loop of `LoadConstants` over constants. -/
def loadConstant : Load (Constant Nat) := do
  let t ← loadChar platform S
  if t = LUA_TNIL then pure .nil
  else if t = LUA_TBOOLEAN then do
    let b ← loadChar platform S
    pure (.boolean (b ≠ 0))
  else if t = LUA_TNUMBER then do
    let x ← loadNumber platform S
    pure (.number x)
  else if t = LUA_TSTRING then do
    let s ← loadString platform S
    pure (.string s)
  else throw .badConstant

def loadConstants : Load (List (Constant Nat)) := do
  let n ← loadInt platform S
  readMany (loadConstant platform S) n

/-- The functions that `LoadConstants` loads at its end. -/
def loadFunctions (nested : Load (Proto Nat)) : Load (List (Proto Nat)) := do
  let n ← loadInt platform S
  readMany nested n

def loadLineinfo : Load (List Int) := do
  let n ← loadInt platform S
  let bs ← loadMem S n 4
  pure (bs.map fun b => signed 4 (ofNative platform.little b))

/-- A turn of the loop of `LoadDebug` over local variables. -/
def loadLocvar : Load LocVar := do
  let varname ← loadString platform S
  let startpc ← loadInt platform S
  let endpc ← loadInt platform S
  pure ⟨varname, startpc, endpc⟩

def loadLocvars : Load (List LocVar) := do
  let n ← loadInt platform S
  readMany (loadLocvar platform S) n

def loadUpvalues : Load (List (Option (List UInt8))) := do
  let n ← loadInt platform S
  readMany (loadString platform S) n

variable (checkcode : Proto Unit → Bool)

/-- `LoadFunction` after its source: `luaG_checkcode` looks at no number. -/
def loadBody (nested : List UInt8 → Load (Proto Nat)) (source : List UInt8) :
    Load (Proto Nat) := do
  let linedefined ← loadInt platform S
  let lastlinedefined ← loadInt platform S
  let nups ← loadChar platform S
  let numparams ← loadChar platform S
  let is_vararg ← loadChar platform S
  let maxstacksize ← loadChar platform S
  let code ← loadCode platform S
  let k ← loadConstants platform S
  let p ← loadFunctions platform S (nested source)
  let lineinfo ← loadLineinfo platform S
  let locvars ← loadLocvars platform S
  let upvalues ← loadUpvalues platform S
  let f : Proto Nat := { source, linedefined, lastlinedefined, nups, numparams, is_vararg,
                         maxstacksize, code, k, lineinfo, locvars, upvalues, p }
  if checkcode f.shape then pure f else throw .badCode

/-- `LoadFunction`, with as many nested calls as are left of `LUAI_MAXCCALLS`. -/
def loadFunction : Nat → List UInt8 → Load (Proto Nat)
  | 0, _ => throw .codeTooDeep
  | room + 1, p => do
      let source ← loadString platform S
      loadBody platform S checkcode (loadFunction room) (source.getD p)

/-- `luaU_header`. -/
def luaUHeader : List UInt8 :=
  signature ++ [LUAC_VERSION, LUAC_FORMAT, platform.little.toUInt8, 4, 4, 4,
    UInt8.ofNat platform.size, platform.integral.toUInt8]

/-- The size of numbers is taken from the chunk into both headers that are compared. -/
def loadHeader : Load LoadState := do
  let s ← loadBlock LUAC_HEADERSIZE
  let h := luaUHeader platform
  let swap := s.getD 6 0 ≠ h.getD 6 0
  let s := s.set 6 (h.getD 6 0)
  let numsize := s.getD 10 0
  let h := h.set 10 numsize
  let toflt := s.getD 11 0 > platform.integral.toUInt8
  let s := if toflt then s.set 11 (h.getD 11 0) else s
  if h = s then pure ⟨swap, numsize, toflt⟩ else throw .badHeader

def luaUUndumpFrom (room : Nat) : Load (Proto Nat) := do
  let S ← loadHeader platform
  loadFunction platform S checkcode room unknownSource

/-- `luaU_undump` of a chunk. -/
def luaUUndump (room : Nat) (chunk : List UInt8) : Except LoadError (Proto Nat) :=
  (luaUUndumpFrom platform checkcode room chunk).map Prod.fst

end

end LuaChunk
