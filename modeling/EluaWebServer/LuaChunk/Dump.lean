import EluaWebServer.Lib.Bytes
import EluaWebServer.Lib.Rounding
import EluaWebServer.Lib.Stream
import EluaWebServer.LuaChunk.Proto

/-!
# Dumping chunks for another machine

`luaU_dump_crosscompile` writes a prototype in the byte order and with the sizes of a target.
The cross compiler has double-precision numbers.  `lua_assert` checks nothing, so that a size
that is not handled writes nothing.
-/

namespace LuaChunk

open Bytes Ieee Stream

structure DumpTargetInfo where
  little_endian : Bool
  sizeof_int : Nat
  sizeof_strsize_t : Nat
  sizeof_lua_Number : Nat
  lua_Number_integral : Bool
  is_arm_fpa : Bool
  deriving DecidableEq, Repr

/-- The machine that dumps: its byte order, and what it makes of a number that no `int` has. -/
structure Host where
  little : Bool
  undefinedCast : UInt64 → Int32

def LUA_ERR_CC_INTOVERFLOW : Nat := 101
def LUA_ERR_CC_NOTINTEGER : Nat := 102

def LUAC_VERSION : UInt8 := 0x51
def LUAC_FORMAT : UInt8 := 0
def LUAC_HEADERSIZE : Nat := 12

/-- `LUA_SIGNATURE`, `"\033Lua"`. -/
def signature : List UInt8 := [0x1B, 0x4C, 0x75, 0x61]

def LUA_TNIL : UInt8 := 0
def LUA_TBOOLEAN : UInt8 := 1
def LUA_TNUMBER : UInt8 := 5
def LUA_TSTRING : UInt8 := 6

/-- The format of floating-point numbers of a size. -/
def format (size : Nat) : Format := if size = 4 then single else double

/-- Exchange the halves of eight bytes. -/
def swapHalves (bs : List UInt8) : List UInt8 := bs.drop 4 ++ bs.take 4

/-- `( int )x`. -/
def castInt (host : Host) (x : UInt64) : Int :=
  match toInt double x.toNat with
  | some y => if InRange 4 y then y else (host.undefinedCast x).toInt
  | none => (host.undefinedCast x).toInt

section

variable (host : Host) (target : DumpTargetInfo) (write : List UInt8 → List UInt8 → Nat)

def maybeByteSwap (number : List UInt8) : List UInt8 :=
  if host.little ≠ target.little_endian then
    exchanges number number.length (number.length / 2)
  else number

def dumpChar (y : UInt8) : Writer := block write [y]

/-- Dump a signed integer. -/
def dumpIntWithSize (x : Int) (sizeof_int : Nat) : Writer :=
  match sizeof_int with
  | 1 => do
      setStatusIf (x > 0x7F ∨ x < -0x80) LUA_ERR_CC_INTOVERFLOW
      dumpChar write (UInt8.ofNat (wrap 1 x))
  | 2 => do
      setStatusIf (x > 0x7FFF ∨ x < -0x8000) LUA_ERR_CC_INTOVERFLOW
      block write (maybeByteSwap host target (native host.little 2 (wrap 2 x)))
  | 4 => do
      -- the bounds are reduced by one
      setStatusIf (x > 0x7FFFFFFE ∨ x < -0x7FFFFFFF) LUA_ERR_CC_INTOVERFLOW
      block write (maybeByteSwap host target (native host.little 4 (wrap 4 x)))
  | _ => pure ()

def dumpInt (x : Int) : Writer := dumpIntWithSize host target write x target.sizeof_int

/-- Dump an unsigned integer, which comes as an `int32_t`. -/
def dumpSize (x : Int) : Writer :=
  match target.sizeof_strsize_t with
  | 1 => do
      setStatusIf (x > 0xFF) LUA_ERR_CC_INTOVERFLOW
      dumpChar write (UInt8.ofNat (wrap 1 x))
  | 2 => do
      setStatusIf (x > 0xFFFF) LUA_ERR_CC_INTOVERFLOW
      block write (maybeByteSwap host target (native host.little 2 (wrap 2 x)))
  | 4 => do
      -- compared as an unsigned integer
      setStatusIf (wrap 4 x > 0xFFFFFFFE) LUA_ERR_CC_INTOVERFLOW
      block write (maybeByteSwap host target (native host.little 4 (wrap 4 x)))
  | _ => pure ()

def dumpNumber (x : UInt64) : Writer :=
  if target.lua_Number_integral then do
    setStatusIf (¬ Equal single double (ofInt single (castInt host x)) x.toNat)
      LUA_ERR_CC_NOTINTEGER
    dumpIntWithSize host target write (castInt host x) target.sizeof_lua_Number
  else
    match target.sizeof_lua_Number with
    | 4 => block write (maybeByteSwap host target
        (native host.little 4 (convert double single x.toNat)))
    | 8 =>
        let y := native host.little 8 x.toNat
        let y := if target.is_arm_fpa then swapHalves y else y
        block write (maybeByteSwap host target y)
    | _ => pure ()

def dumpCode (code : List UInt32) : Writer := do
  dumpInt host target write code.length
  code.forM fun i => block write (maybeByteSwap host target (native host.little 4 i.toNat))

def dumpString (s : Option (List UInt8)) : Writer :=
  match s with
  | none => dumpSize host target write 0
  | some s => do
      -- the terminator is included, and the size has 32 bits
      let size := (s.length + 1) % 2 ^ 32
      dumpSize host target write (signed 4 size)
      block write ((s ++ [0]).take size)

/-- A turn of the first loop of `DumpConstants`. -/
def dumpConstant (o : Constant UInt64) : Writer :=
  match o with
  | .nil => dumpChar write LUA_TNIL
  | .boolean b => do
      dumpChar write LUA_TBOOLEAN
      dumpChar write b.toUInt8
  | .number x => do
      dumpChar write LUA_TNUMBER
      dumpNumber host target write x
  | .string s => do
      dumpChar write LUA_TSTRING
      dumpString host target write s

def dumpConstants (f : ProtoFields UInt64) : Writer := do
  dumpInt host target write f.k.length
  f.k.forM (dumpConstant host target write)

/-- A turn of the loop of `DumpDebug` over local variables. -/
def dumpLocvar (v : LocVar) : Writer := do
  dumpString host target write v.varname
  dumpInt host target write v.startpc
  dumpInt host target write v.endpc

def dumpDebug (strip : Bool) (f : ProtoFields UInt64) : Writer := do
  let lineinfo := if strip then [] else f.lineinfo
  dumpInt host target write lineinfo.length
  lineinfo.forM (dumpInt host target write)
  let locvars := if strip then [] else f.locvars
  dumpInt host target write locvars.length
  locvars.forM (dumpLocvar host target write)
  let upvalues := if strip then [] else f.upvalues
  dumpInt host target write upvalues.length
  upvalues.forM (dumpString host target write)

/-- `DumpFunction` until the constants. -/
def dumpHead (strip : Bool) (source : Option (List UInt8)) (f : ProtoFields UInt64) :
    Writer := do
  dumpString host target write (if some f.source = source ∨ strip then none else some f.source)
  dumpInt host target write f.linedefined
  dumpInt host target write f.lastlinedefined
  dumpChar write f.nups
  dumpChar write f.numparams
  dumpChar write f.is_vararg
  dumpChar write f.maxstacksize
  dumpCode host target write f.code

mutual

/-- Dump a function, whose source is left out if it is the given one. -/
def dumpFunction (strip : Bool) (source : Option (List UInt8)) : Proto UInt64 → Writer
  | ⟨f, p⟩ => do
      dumpHead host target write strip source f
      dumpConstants host target write f
      dumpInt host target write p.length
      dumpFunctions strip (some f.source) p
      dumpDebug host target write strip f

/-- The second loop of `DumpConstants`. -/
def dumpFunctions (strip : Bool) (source : Option (List UInt8)) : List (Proto UInt64) → Writer
  | [] => pure ()
  | f :: fs => do
      dumpFunction strip source f
      dumpFunctions strip source fs

end

def dumpHeader : Writer :=
  block write (signature ++ [LUAC_VERSION, LUAC_FORMAT, target.little_endian.toUInt8,
    UInt8.ofNat target.sizeof_int, UInt8.ofNat target.sizeof_strsize_t, 4,
    UInt8.ofNat target.sizeof_lua_Number, target.lua_Number_integral.toUInt8])

/-- `luaU_dump_crosscompile`: what has been written, and the status. -/
def luaUDumpCrosscompile (strip : Bool) (f : Proto UInt64) : Sink :=
  let dump : Writer := do
    dumpHeader target write
    dumpFunction host target write strip none f
  (dump ⟨[], 0⟩).2

end

/-- Exchange the words of eight bytes of bits. -/
def swapWords (x : Nat) : Nat := x % 2 ^ 32 * 2 ^ 32 + x / 2 ^ 32

theorem swapWords_swapWords {x : Nat} (h : x < 2 ^ 64) : swapWords (swapWords x) = x := by
  unfold swapWords
  omega

theorem swapWords_lt {x : Nat} (h : x < 2 ^ 64) : swapWords x < 2 ^ 64 := by
  unfold swapWords
  omega

theorem reverse_swapHalves {bs : List UInt8} (h : bs.length = 8) :
    (swapHalves bs).reverse = swapHalves bs.reverse := by
  rw [swapHalves, swapHalves, List.reverse_append, List.reverse_take, List.reverse_drop, h]

/-- In either byte order. -/
theorem swapHalves_native (little : Bool) {x : Nat} (h : x < 2 ^ 64) :
    swapHalves (native little 8 x) = native little 8 (swapWords x) := by
  have hlittle : swapHalves (bytesLE 8 x) = bytesLE 8 (swapWords x) := by
    have hlow : x % 2 ^ 32 < 2 ^ (8 * 4) := Nat.mod_lt _ (by decide)
    have hhigh : x / 2 ^ 32 < 2 ^ (8 * 4) := by omega
    have hx : x = x % 2 ^ 32 + 2 ^ (8 * 4) * (x / 2 ^ 32) := (Nat.mod_add_div x (2 ^ 32)).symm
    have hswapped : swapWords x = x / 2 ^ 32 + 2 ^ (8 * 4) * (x % 2 ^ 32) := by
      rw [swapWords]
      omega
    have hsplit := bytesLE_add 4 hlow (x / 2 ^ 32)
    have hsplit' := bytesLE_add 4 hhigh (x % 2 ^ 32)
    rw [← hx] at hsplit
    rw [← hswapped] at hsplit'
    rw [hsplit, hsplit', swapHalves, List.drop_left' (length_bytesLE 4 _),
      List.take_left' (length_bytesLE 4 _)]
  cases little with
  | true => exact hlittle
  | false =>
      change swapHalves (bytesLE 8 x).reverse = (bytesLE 8 (swapWords x)).reverse
      rw [← hlittle, reverse_swapHalves (length_bytesLE 8 x)]

/-! ## What a target gets -/

variable {host : Host} {target : DumpTargetInfo} {write : List UInt8 → List UInt8 → Nat}

/-- The bytes end up in the byte order of the target. -/
theorem maybeByteSwap_native (n x : Nat) :
    maybeByteSwap host target (native host.little n x) = native target.little_endian n x := by
  rw [maybeByteSwap, exchanges_half]
  by_cases horder : host.little = target.little_endian
  · rw [if_neg (not_not_intro horder), horder]
  · rw [if_pos horder, reverse_native horder]

theorem dumpFunctions_eq (strip : Bool) (parent : Option (List UInt8)) (fs : List (Proto UInt64)) :
    dumpFunctions host target write strip parent fs =
      fs.forM (dumpFunction host target write strip parent) := by
  induction fs with
  | nil => rw [dumpFunctions]; rfl
  | cons f fs ih => rw [dumpFunctions, ih]; rfl

theorem dumpFunction_eq (strip : Bool) (parent : Option (List UInt8)) (f : Proto UInt64) :
    dumpFunction host target write strip parent f = (do
      dumpHead host target write strip parent f.toProtoFields
      dumpConstants host target write f.toProtoFields
      dumpInt host target write f.p.length
      dumpFunctions host target write strip (some f.source) f.p
      dumpDebug host target write strip f.toProtoFields) := by
  cases f with
  | mk f p => rw [dumpFunction]

/-! ## The header comes first -/

theorem appends_dumpIntWithSize (x : Int) (size : Nat) :
    Appends (dumpIntWithSize host target write x size) := by
  unfold dumpIntWithSize
  split
  · exact (appends_setStatusIf _ _).andThen (appends_block _ _)
  · exact (appends_setStatusIf _ _).andThen (appends_block _ _)
  · exact (appends_setStatusIf _ _).andThen (appends_block _ _)
  · exact appends_pure

theorem appends_dumpInt (x : Int) : Appends (dumpInt host target write x) :=
  appends_dumpIntWithSize x _

theorem appends_dumpSize (x : Int) : Appends (dumpSize host target write x) := by
  unfold dumpSize
  split
  · exact (appends_setStatusIf _ _).andThen (appends_block _ _)
  · exact (appends_setStatusIf _ _).andThen (appends_block _ _)
  · exact (appends_setStatusIf _ _).andThen (appends_block _ _)
  · exact appends_pure

theorem appends_dumpString (s : Option (List UInt8)) :
    Appends (dumpString host target write s) := by
  cases s with
  | none => exact appends_dumpSize 0
  | some s => exact (appends_dumpSize _).andThen (appends_block _ _)

theorem appends_dumpNumber (x : UInt64) : Appends (dumpNumber host target write x) := by
  unfold dumpNumber
  split
  · exact (appends_setStatusIf _ _).andThen (appends_dumpIntWithSize _ _)
  · split
    · exact appends_block _ _
    · exact appends_block _ _
    · exact appends_pure

theorem appends_dumpConstant (o : Constant UInt64) :
    Appends (dumpConstant host target write o) := by
  cases o with
  | nil => exact appends_block _ _
  | boolean b => exact (appends_block _ _).andThen (appends_block _ _)
  | number x => exact (appends_block _ _).andThen (appends_dumpNumber x)
  | string s => exact (appends_block _ _).andThen (appends_dumpString s)

theorem appends_dumpHead (strip : Bool) (source : Option (List UInt8)) (f : ProtoFields UInt64) :
    Appends (dumpHead host target write strip source f) := by
  have hcode : Appends (dumpCode host target write f.code) :=
    (appends_dumpInt _).andThen (appends_forM _ fun _ _ => appends_block _ _)
  exact (appends_dumpString _).andThen ((appends_dumpInt _).andThen ((appends_dumpInt _).andThen
    ((appends_block _ _).andThen ((appends_block _ _).andThen ((appends_block _ _).andThen
      ((appends_block _ _).andThen hcode))))))

theorem appends_dumpDebug (strip : Bool) (f : ProtoFields UInt64) :
    Appends (dumpDebug host target write strip f) := by
  have hlocvar (v : LocVar) : Appends (dumpLocvar host target write v) :=
    (appends_dumpString _).andThen ((appends_dumpInt _).andThen (appends_dumpInt _))
  exact (appends_dumpInt _).andThen ((appends_forM _ fun x _ => appends_dumpInt x).andThen
    ((appends_dumpInt _).andThen ((appends_forM _ fun v _ => hlocvar v).andThen
      ((appends_dumpInt _).andThen (appends_forM _ fun s _ => appends_dumpString s)))))

theorem appends_dumpFunction (strip : Bool) (source : Option (List UInt8)) (f : Proto UInt64) :
    Appends (dumpFunction host target write strip source f) := by
  induction f using Proto.induct generalizing source with
  | proto f ih =>
      rw [dumpFunction_eq, dumpFunctions_eq]
      have hconstants : Appends (dumpConstants host target write f.toProtoFields) :=
        (appends_dumpInt _).andThen (appends_forM _ fun o _ => appends_dumpConstant o)
      exact (appends_dumpHead _ _ _).andThen (hconstants.andThen ((appends_dumpInt _).andThen
        ((appends_forM _ fun g hg => ih g hg _).andThen (appends_dumpDebug _ _))))

end LuaChunk
