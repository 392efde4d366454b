import EluaWebServer.Lib.Packed
import EluaWebServer.Lib.Transition

/-!
# Virtual timers

The virtual timers of common_tmr.c.  The callback runs on the platform's timer
interrupt, between any two accesses that the main program makes to the timers'
variables.  Setting or clearing a bit is two accesses, a load of the byte and a
store.
-/

namespace Vtmr

/-- The configuration.  `vtmr_reset_idx` is an `s8`, so a timer's number is
below 128. -/
structure Platform where
  VTMR_NUM_TIMERS : Nat
  VTMR_FREQ_HZ : Nat
  small : VTMR_NUM_TIMERS ≤ 128

def VTMR_FIRST_ID : Nat := 32

/-- The arrays with one bit for each timer. -/
inductive Flags where
  | periodic
  | enabled
  | int
  deriving DecidableEq

/-- The variables of common_tmr.c: `vtmr_counters`, `vtmr_reset_idx` (`none` is
-1), `vtmr_period_limit`, and `vtmr_int_periodic_flag`, `vtmr_int_enabled` and
`vtmr_int_flag`. -/
structure Vars where
  counters : Nat → UInt32
  resetIdx : Option Nat
  periodLimit : Nat → UInt32
  flags : Flags → Nat → UInt8

namespace Vars

/-- The static variables at the start. -/
def init : Vars := ⟨fun _ => 0, none, fun _ => 0, fun _ _ => 0⟩

/-- The bit of a timer. -/
def test (v : Vars) (f : Flags) (id : Nat) : Bool :=
  Packed.test (v.flags f) id

/-- A byte that was read earlier is written back with one bit changed. -/
def storeByte (v : Vars) (f : Flags) (read : UInt8) (id : Nat) (set : Bool) : Vars :=
  { v with flags := Function.update v.flags f (Packed.store (v.flags f) read id set) }

/-- `flags[ i >> 3 ] |= msk` and `flags[ i >> 3 ] &= ( u8 )~msk`, undisturbed. -/
def setBit (v : Vars) (f : Flags) (id : Nat) (set : Bool) : Vars :=
  v.storeByte f (v.flags f (id >>> 3)) id set

def setCounter (v : Vars) (id : Nat) (n : UInt32) : Vars :=
  { v with counters := Function.update v.counters id n }

/-- The body of the loop in `cmn_virtual_timer_cb`, and whether it calls
`elua_int_add`. -/
def countTimer (v : Vars) (i : Nat) : Vars × Bool :=
  let v := v.setCounter i (v.counters i + 1)
  if v.counters i ≥ v.periodLimit i then
    let v := v.setBit .int i true
    let add := v.test .enabled i
    if v.test .periodic i then (v.setCounter i 0, add) else (v.setBit .enabled i false, add)
  else (v, false)

/-- The loop in `cmn_virtual_timer_cb` over the first timers, and the resource
numbers that `elua_int_add` is called with. -/
def countTimers (v : Vars) : Nat → Vars × List Nat
  | 0 => (v, [])
  | i + 1 =>
      let (v, adds) := v.countTimers i
      let (v, add) := v.countTimer i
      (v, if add then adds ++ [i + VTMR_FIRST_ID] else adds)

/-- `cmn_virtual_timer_cb`. -/
def cmnVirtualTimerCb (cfg : Platform) (v : Vars) : Vars × List Nat :=
  let (v, adds) := v.countTimers cfg.VTMR_NUM_TIMERS
  match v.resetIdx with
  | some idx => ({ v.setCounter idx 0 with resetIdx := none }, adds)
  | none => (v, adds)

end Vars

/-- One access that the main program makes. -/
inductive Access where
  | setLimit (id : Nat) (final : UInt32)
  | setBit (f : Flags) (id : Nat) (set : Bool)
  | testBit (f : Flags) (id : Nat)
  | readCounter (id : Nat)
  | setReset (id : Nat)
  | awaitReset
  | awaitCounter (id : Nat) (final : UInt32)
  | result (r : Nat)
  deriving DecidableEq

def PLATFORM_TIMER_INT_ONESHOT : Nat := 1
def PLATFORM_TIMER_INT_CYCLIC : Nat := 2
def PLATFORM_TIMER_INT_OK : Nat := 0
def PLATFORM_TIMER_INT_TOO_SHORT : Nat := 1

/-- What the main program calls for a virtual timer: `platform_timer_op` with
`PLATFORM_TIMER_OP_START` and `PLATFORM_TIMER_OP_READ`, and the functions
whose names begin with `vtmr_`. -/
inductive Call where
  | start (id : Nat)
  | read (id : Nat)
  | delay (id : Nat) (delayUs : UInt32)
  | setMatchInt (id : Nat) (periodUs : UInt32) (type : Nat)
  | getFlag (id : Nat) (clear : Bool)
  | setStatus (id : Nat) (enable : Bool)
  | getStatus (id : Nat)
  deriving DecidableEq

def Call.id : Call → Nat
  | .start id | .read id | .delay id _ | .setMatchInt id _ _ | .getFlag id _ | .setStatus id _
  | .getStatus id => id

/-- `( ( u64 )period_us * VTMR_FREQ_HZ ) / 1000000`, in a `timer_data_type`. -/
def final (cfg : Platform) (us : UInt32) : UInt32 :=
  (us.toUInt64 * UInt64.ofNat cfg.VTMR_FREQ_HZ / 1000000).toUInt32

def vtmrResetTimer (id : Nat) : List Access :=
  [.setReset id, .awaitReset]

def vtmrDelay (cfg : Platform) (id : Nat) (delayUs : UInt32) : List Access :=
  vtmrResetTimer id ++ [.awaitCounter id (final cfg delayUs)]

def vtmrSetMatchInt (cfg : Platform) (id : Nat) (periodUs : UInt32) (type : Nat) :
    List Access :=
  if periodUs = 0 then
    [.setBit .enabled id false, .setBit .int id false, .result PLATFORM_TIMER_INT_OK]
  else if final cfg periodUs = 0 then [.result PLATFORM_TIMER_INT_TOO_SHORT]
  else
    [.setLimit id (final cfg periodUs),
      .setBit .periodic id (type ≠ PLATFORM_TIMER_INT_ONESHOT), .setBit .int id false] ++
    vtmrResetTimer id ++ [.setBit .enabled id true, .result PLATFORM_TIMER_INT_OK]

def vtmrIntGetFlag (id : Nat) (clear : Bool) : List Access :=
  .testBit .int id :: if clear then [.setBit .int id false] else []

def vtmrIntSetStatus (id : Nat) (enable : Bool) : List Access :=
  [.testBit .enabled id, .setBit .enabled id enable]

def vtmrIntGetStatus (id : Nat) : List Access :=
  [.testBit .enabled id]

/-- The accesses of a call. -/
def Call.accesses (cfg : Platform) : Call → List Access
  | .start id => vtmrResetTimer id ++ [.result 0]
  | .read id => [.readCounter id]
  | .delay id us => vtmrDelay cfg id us
  | .setMatchInt id us type => vtmrSetMatchInt cfg id us type
  | .getFlag id clear => vtmrIntGetFlag id clear
  | .setStatus id enable => vtmrIntSetStatus id enable
  | .getStatus id => vtmrIntGetStatus id

/-- The variables and the main program: the accesses that the call in progress
still has to make, the byte it has loaded, and the result of the last call. -/
structure System where
  vars : Vars
  todo : List Access
  loaded : Option UInt8
  status : Nat

inductive Action where
  | tick
  | call (c : Call)
  | main
  deriving DecidableEq

namespace System

def init : System := ⟨.init, [], none, 0⟩

/-- The next access of the main program. -/
def access (s : System) : Access → List Access → System
  | .setLimit id final, rest =>
      { s with
        vars := { s.vars with periodLimit := Function.update s.vars.periodLimit id final }
        todo := rest }
  | .setBit f id set, rest =>
      match s.loaded with
      | none => { s with loaded := some (s.vars.flags f (id >>> 3)) }
      | some b => { s with vars := s.vars.storeByte f b id set, loaded := none, todo := rest }
  | .testBit f id, rest => { s with status := (s.vars.test f id).toNat, todo := rest }
  | .readCounter id, rest => { s with status := (s.vars.counters id).toNat, todo := rest }
  | .setReset id, rest => { s with vars := { s.vars with resetIdx := some id }, todo := rest }
  | .awaitReset, rest => if s.vars.resetIdx = none then { s with todo := rest } else s
  | .awaitCounter id final, rest =>
      if s.vars.counters id < final then s else { s with todo := rest }
  | .result r, rest => { s with status := r, todo := rest }

/-- A tick, a call to a virtual timer's function when none is in progress, and
the next access of the call in progress. -/
def step (cfg : Platform) (s : System) : Action → Option System
  | .tick => some { s with vars := (s.vars.cmnVirtualTimerCb cfg).1 }
  | .call c =>
      if s.todo = [] ∧ c.id < cfg.VTMR_NUM_TIMERS then some { s with todo := c.accesses cfg }
      else none
  | .main =>
      match s.todo with
      | [] => none
      | a :: rest => some (s.access a rest)

end System

end Vtmr
