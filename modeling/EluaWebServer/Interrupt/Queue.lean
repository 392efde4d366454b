import EluaWebServer.Lib.Ring
import Mathlib.Algebra.Ring.Nat

/-!
# The interrupt queue

The queue of interrupts for Lua handlers, with its read and write indexes of 8
bits and the flags of the interrupts that are enabled.  Full and empty are told
from the slots: a slot with the id 0 is empty.
-/

namespace Interrupt

def ELUA_INT_EMPTY_SLOT : UInt8 := 0
def ELUA_INT_FIRST_ID : UInt8 := 1
def LUA_INT_MAX_SOURCES : Nat := 128

inductive Status where
  | PLATFORM_OK
  | PLATFORM_ERR
  deriving DecidableEq, Repr

/-- This is what gets pushed in the interrupt queue. -/
structure Element where
  id : UInt8
  resnum : UInt16
  deriving DecidableEq, Repr

/-- What a platform defines: `PLATFORM_INT_QUEUE_LOG_SIZE` and `INT_ELUA_LAST`. -/
structure Platform where
  queueLogSize : Nat
  intEluaLast : UInt8

/-- The variables of the interrupt support. -/
structure Queue where
  readIdx : Nat
  writeIdx : Nat
  slot : Nat → Element
  flags : Nat → BitVec 32

section

variable (cfg : Platform) (q : Queue)

/-- An index moved on by one, in its 8 bits. -/
def nextIdx (i : Nat) : Nat := ((i + 1) &&& (2 ^ cfg.queueLogSize - 1)) % 2 ^ 8

/-- Enable the given interrupt. -/
def eluaIntEnable (inttype : UInt8) : Queue :=
  if inttype.toNat < LUA_INT_MAX_SOURCES then
    { q with flags := fun i =>
        if i = inttype.toNat >>> 5 then q.flags i ||| (1#32 <<< (inttype.toNat &&& 0x1F))
        else q.flags i }
  else q

/-- Disable the given interrupt. -/
def eluaIntDisable (inttype : UInt8) : Queue :=
  if inttype.toNat < LUA_INT_MAX_SOURCES then
    { q with flags := fun i =>
        if i = inttype.toNat >>> 5 then q.flags i &&& ~~~(1#32 <<< (inttype.toNat &&& 0x1F))
        else q.flags i }
  else q

/-- Whether the given interrupt is enabled. -/
def eluaIntIsEnabled (inttype : UInt8) : Bool :=
  if inttype.toNat < LUA_INT_MAX_SOURCES then
    q.flags (inttype.toNat >>> 5) &&& (1#32 <<< (inttype.toNat &&& 0x1F)) ≠ 0
  else false

/-- Whether the id is one that the platform has. -/
def validId (inttype : UInt8) : Bool :=
  ¬ (inttype < ELUA_INT_FIRST_ID ∨ cfg.intEluaLast < inttype)

/-- Queue an interrupt; `luaRuns` is whether there is a Lua state.  The hook is
set on that Lua state when the result is `PLATFORM_OK`. -/
def eluaIntAdd (luaRuns : Bool) (inttype : UInt8) (resnum : UInt16) : Queue × Status :=
  if validId cfg inttype = false then (q, .PLATFORM_ERR)
  else if luaRuns = false ∨ eluaIntIsEnabled q inttype = false then (q, .PLATFORM_ERR)
  else if (q.slot q.writeIdx).id ≠ ELUA_INT_EMPTY_SLOT then (q, .PLATFORM_ERR)
  else
    ({ q with
        slot := fun i => if i = q.writeIdx then ⟨inttype, resnum⟩ else q.slot i
        writeIdx := nextIdx cfg q.writeIdx }, .PLATFORM_OK)

/-- Called when the Lua state is closed. -/
def eluaIntCleanup : Queue :=
  { readIdx := 0, writeIdx := 0
    slot := fun _ => ⟨ELUA_INT_EMPTY_SLOT, 0⟩
    flags := fun i => if i < LUA_INT_MAX_SOURCES / 32 then 0 else q.flags i }

/-- The hook takes an interrupt: the slot at the read index. -/
def current : Element := q.slot q.readIdx

/-- The slot at the read index is made empty. -/
def freeSlot : Queue :=
  { q with slot := fun i =>
      if i = q.readIdx then { q.slot i with id := ELUA_INT_EMPTY_SLOT } else q.slot i }

/-- The read index is moved on. -/
def moveRead : Queue := { q with readIdx := nextIdx cfg q.readIdx }

/-- No more interrupts in the queue. -/
def noMore : Bool := (q.slot q.readIdx).id = ELUA_INT_EMPTY_SLOT

/-- The number of slots that the indexes go around in. -/
def slots : Nat := 2 ^ min cfg.queueLogSize 8

/-- The occupied slots from the given index on. -/
def occupied (i : Nat) : List Element :=
  ((List.range (slots cfg)).map fun k => q.slot ((i + k) % slots cfg)).filter
    fun e => e.id ≠ ELUA_INT_EMPTY_SLOT

end

/-! ## Indexes -/

theorem slots_pos (cfg : Platform) : 0 < slots cfg := Nat.pow_pos (by decide)

theorem nextIdx_mod (cfg : Platform) (i : Nat) :
    nextIdx cfg (i % slots cfg) = (i + 1) % slots cfg := by
  have hmod : nextIdx cfg (i % slots cfg) = (i % slots cfg + 1) % slots cfg := by
    have hlt := Nat.mod_lt i (slots_pos cfg)
    rw [nextIdx, Nat.and_two_pow_sub_one_eq_mod]
    unfold slots at *
    by_cases hle : cfg.queueLogSize ≤ 8
    · rw [Nat.min_eq_left hle] at *
      refine Nat.mod_eq_of_lt (Nat.lt_of_lt_of_le (Nat.mod_lt _ (Nat.pow_pos (by decide))) ?_)
      exact Nat.pow_le_pow_right (by decide) hle
    · rw [Nat.min_eq_right (by omega)]
      exact Nat.mod_mod_of_dvd _ (Nat.pow_dvd_pow 2 (by omega))
  rw [hmod, Nat.mod_add_mod]

end Interrupt
