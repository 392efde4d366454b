import EluaWebServer.Interrupt.Queue
import EluaWebServer.Lib.Transition

/-!
# Lua states, hooks and interrupts

The main Lua state and its coroutines run Lua code, which fires the hook on the
Lua states where it is installed; an interrupt adds to the queue between any two
steps.  Hook executions nest when a handler runs a coroutine: Lua does not fire
the hook on a Lua state that is executing it.
-/

namespace Interrupt

/-- Where an execution of `elua_int_hook` is: before a statement, with the
interrupt it took, or in the Lua handler. -/
inductive Pc where
  | entered
  | copied (crt : Element)
  | freed (crt : Element)
  | moved (crt : Element)
  | calling
  | finishing
  deriving DecidableEq, Repr

/-- An execution of the hook, on a Lua state. -/
structure Frame where
  state : Nat
  pc : Pc
  deriving DecidableEq, Repr

/-- The main Lua state. -/
def mainState : Nat := 0

/-- The queue, whether there is a Lua state at all, how many there were, where
the hook is installed, and its executions, the innermost first.  `accepted`
has the interrupts for which `elua_int_add` returned `PLATFORM_OK`, `dequeued`
those that the hook removed from the queue. -/
structure System where
  queue : Queue
  running : Bool
  threads : Nat
  hooked : List Nat
  frames : List Frame
  accepted : List Element
  dequeued : List Element

inductive Action where
  | opened
  | closed
  | enable (inttype : UInt8)
  | disable (inttype : UInt8)
  | add (inttype : UInt8) (resnum : UInt16)
  | fire (state : Nat)
  | hook (handler : Bool)
  | handlerReturns
  | handlerFails (dead : Bool)
  | newThread (creator : Nat)
  | threadEnds (state : Nat)
  | otherHook (state : Nat)

namespace System

variable (cfg : Platform) (s : System)

/-- The Lua states that are executing the hook. -/
def executing : List Nat := s.frames.map Frame.state

/-- Lua code runs: not in the hook, or in a handler. -/
def luaRuns : Bool :=
  s.running &&
    match s.frames with
    | [] => true
    | f :: _ => f.pc = .calling

/-- `elua_int_add` from an interrupt. -/
def add (inttype : UInt8) (resnum : UInt16) : System :=
  match eluaIntAdd cfg s.queue s.running inttype resnum with
  | (q, .PLATFORM_OK) =>
      { s with
        queue := q, hooked := mainState :: s.hooked, accepted := s.accepted ++ [⟨inttype, resnum⟩] }
  | (_, .PLATFORM_ERR) => s

/-- The next statement of the innermost hook execution; `handler` is whether
the handler table has a function for the interrupt. -/
def hook (handler : Bool) : Option System :=
  match s.frames with
  | [] => none
  | f :: fs =>
      match f.pc with
      | .entered => some { s with frames := { f with pc := .copied (current s.queue) } :: fs }
      | .copied crt =>
          some { s with
            queue := freeSlot s.queue, frames := { f with pc := .freed crt } :: fs
            dequeued := s.dequeued ++ [crt] }
      | .freed crt =>
          some { s with queue := moveRead cfg s.queue, frames := { f with pc := .moved crt } :: fs }
      | .moved crt =>
          some { s with
            frames := { f with
              pc := if eluaIntIsEnabled s.queue crt.id && handler then .calling
                else .finishing } :: fs }
      | .calling => none
      | .finishing =>
          some { s with
            hooked := if noMore s.queue then s.hooked.filter (· ≠ f.state) else s.hooked
            frames := fs }

/-- The handler returns to the hook. -/
def handlerReturns : Option System :=
  match s.frames with
  | ⟨l, .calling⟩ :: fs => some { s with frames := ⟨l, .finishing⟩ :: fs }
  | _ => none

/-- The handler raises an error, which leaves the hook; the coroutine that ran
is dead if it did not catch it. -/
def handlerFails (dead : Bool) : Option System :=
  match s.frames with
  | ⟨l, .calling⟩ :: fs =>
      if dead ∧ l = mainState then none
      else
        some { s with
          hooked := if dead then s.hooked.filter (· ≠ l) else s.hooked
          frames := fs }
  | _ => none

def step : Action → Option System
  | .opened =>
      if s.running then none else some { s with running := true, threads := 1 }
  | .closed =>
      if s.running ∧ s.frames = [] then
        some ⟨eluaIntCleanup s.queue, false, 1, [], [], [], []⟩
      else none
  | .enable inttype =>
      if s.luaRuns then some { s with queue := eluaIntEnable s.queue inttype } else none
  | .disable inttype =>
      if s.luaRuns then some { s with queue := eluaIntDisable s.queue inttype } else none
  | .add inttype resnum => some (s.add cfg inttype resnum)
  | .fire l =>
      if s.luaRuns ∧ l ∈ s.hooked ∧ l ∉ s.executing then
        some { s with frames := ⟨l, .entered⟩ :: s.frames }
      else none
  | .hook handler => s.hook cfg handler
  | .handlerReturns => s.handlerReturns
  | .handlerFails dead => s.handlerFails dead
  | .newThread creator =>
      if s.luaRuns ∧ creator < s.threads then
        some { s with
          hooked := if creator ∈ s.hooked then s.threads :: s.hooked else s.hooked
          threads := s.threads + 1 }
      else none
  | .threadEnds l =>
      if s.luaRuns ∧ l ≠ mainState ∧ l ∉ s.executing then
        some { s with hooked := s.hooked.filter (· ≠ l) }
      else none
  | .otherHook l =>
      if s.luaRuns then some { s with hooked := s.hooked.filter (· ≠ l) } else none

/-- Before there is a Lua state. -/
def init : System :=
  ⟨⟨0, 0, fun _ => ⟨ELUA_INT_EMPTY_SLOT, 0⟩, fun _ => 0⟩, false, 1, [], [], [], []⟩

/-- Where the interrupts that are left in the queue begin: at the read index,
or behind the slot that was freed before the read index moves. -/
def firstIdx : Nat :=
  match s.frames with
  | ⟨_, .freed _⟩ :: _ => nextIdx cfg s.queue.readIdx
  | _ => s.queue.readIdx

/-- The innermost hook execution is about to free a slot. -/
def freeing : Bool :=
  match s.frames with
  | ⟨_, .copied _⟩ :: _ => true
  | _ => false

/-- The interrupts that are left in the queue. -/
def left : List Element := occupied cfg s.queue (s.firstIdx cfg)

end System

end Interrupt
