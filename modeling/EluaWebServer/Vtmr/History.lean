import EluaWebServer.Vtmr.Arming

/-!
# The history of one timer

What has happened to a timer since `vtmr_set_match_int` last armed it, next to
the timers and the main program.
-/

namespace Vtmr

/-- The access sets or clears the timer's enable bit. -/
def Access.enables (i : Nat) : Access → Bool
  | .setBit .enabled id _ => id = i
  | _ => false

/-- The access sets or clears an enable bit in the byte. -/
def Access.enablesIn (byte : Nat) : Access → Bool
  | .setBit .enabled id _ => id >>> 3 = byte
  | _ => false

/-- The access stores the timer's limit. -/
def Access.limits (i : Nat) : Access → Bool
  | .setLimit id _ => id = i
  | _ => false

/-- From the moment the new limit is stored: whether `vtmr_set_match_int` has
returned, the ticks since the first one that reset the counter and since the
last one that did, how often the interrupt was raised, and whether
`vtmr_int_get_flag` has cleared the flag after that. -/
structure History where
  oneShot : Bool
  final : UInt32
  returned : Bool
  elapsed : Option Nat
  sinceReset : Nat
  raised : Nat
  cleared : Bool

/-- The timers, the call that is or was last in progress, and the history of
one timer. -/
structure Watched where
  sys : System
  call : Option Call
  history : Option History

namespace History

def start (oneShot : Bool) (final : UInt32) : History :=
  ⟨oneShot, final, false, none, 0, 0, false⟩

/-- After a tick that resets the counter or not, and raises the interrupt or
not. -/
def tick (h : History) (resets raises : Bool) : History :=
  { h with
    elapsed := match h.elapsed with
      | none => if resets then some 0 else none
      | some e => some (e + 1)
    sinceReset := if resets then 0 else h.sinceReset + 1
    raised := h.raised + raises.toNat }

/-- After the flag is cleared. -/
def clear (h : History) : History :=
  { h with cleared := h.cleared || h.raised ≠ 0 }

end History

namespace Watched

def init : Watched := ⟨.init, none, none⟩

/-- After the next access of the main program. -/
def access (i : Nat) (w : Watched) (a : Access) (rest : List Access) : Watched :=
  { w with
    sys := w.sys.access a rest
    history := match a with
      | .setLimit id n =>
          if id = i then
            match w.call with
            | some (.setMatchInt _ _ type) => some (.start (type = PLATFORM_TIMER_INT_ONESHOT) n)
            | _ => w.history
          else w.history
      | .setBit .int id false =>
          if id = i ∧ w.sys.loaded ≠ none then w.history.map .clear else w.history
      | .result _ => w.history.map fun h => { h with returned := true }
      | _ => w.history }

/-- A period of 0 ends the history; the rest is as in `System.step`. -/
def step (cfg : Platform) (i : Nat) (w : Watched) : Action → Option Watched
  | .tick =>
      some { w with
        sys := { w.sys with vars := (w.sys.vars.cmnVirtualTimerCb cfg).1 }
        history := w.history.map (.tick · (w.sys.vars.resetIdx = some i)
          (i + VTMR_FIRST_ID ∈ (w.sys.vars.cmnVirtualTimerCb cfg).2)) }
  | .call c =>
      if w.sys.todo = [] ∧ c.id < cfg.VTMR_NUM_TIMERS then
        some {
          sys := { w.sys with todo := c.accesses cfg }
          call := some c
          history := match c with
            | .setMatchInt id us _ => if id = i ∧ us = 0 then none else w.history
            | _ => w.history }
      else none
  | .main =>
      match w.sys.todo with
      | [] => none
      | a :: rest => some (w.access i a rest)

/-- The steps are those of the timers and the main program. -/
theorem step_sys (cfg : Platform) (i : Nat) (w : Watched) (a : Action) :
    (w.step cfg i a).map sys = w.sys.step cfg a := by
  cases a with
  | tick => rfl
  | call c =>
      simp only [step, System.step]
      split <;> rfl
  | main =>
      cases h : w.sys.todo with
      | nil => simp [step, System.step, h]
      | cons a rest => simp [step, System.step, h, access]

/-- **What an armed timer does.**  After `vtmr_set_match_int` has returned, its
counter has been reset; before `final` ticks have passed since then, its flag is
clear and its interrupt has not been raised.  The interrupt of a one-shot timer
is raised once, when `final` ticks have passed since the counter was last reset,
and its flag stays clear once it is cleared after that. -/
def Matches (i : Nat) (w : Watched) : Prop :=
  ∀ h, w.history = some h → h.returned = true →
    (∃ e, h.elapsed = some e ∧
      (e < h.final.toNat → w.sys.vars.test .int i = false ∧ h.raised = 0)) ∧
    (h.oneShot = true →
      h.raised ≤ 1 ∧ (h.final.toNat ≤ h.sinceReset → h.raised = 1) ∧
      (h.cleared = true → w.sys.vars.test .int i = false))

/-- The main program is in a call that sets or clears the timer's enable bit,
other than one that arms it anew, or is between the load and the store of the
byte with that bit. -/
def enabling (i : Nat) (w : Watched) : Bool :=
  w.sys.todo.any (Access.enables i) && !w.sys.todo.any (Access.limits i) ||
  w.sys.loaded.isSome && w.sys.todo.head?.any (Access.enablesIn (i >>> 3))

/-- The condition on a tick: it does not bring the counter to the limit while
`vtmr_set_match_int` is past the store of the limit and has not returned; for a
one-shot timer also not after its flag was cleared, and it does not raise the
interrupt while the enable bit is being written. -/
def TickOk (i : Nat) (w : Watched) (h : History) : Prop :=
  (w.sys.vars.timer i).due = true →
    h.returned = true ∧
    (h.oneShot = true → h.cleared = false ∧ (h.raised = 0 → w.enabling i = false))

/-- The condition on a step: that on a tick, and `vtmr_int_set_status` does not
disable the interrupt of a one-shot timer before it is raised, or enable it
after that. -/
def StepOk (i : Nat) (w : Watched) : Action → Prop
  | .tick => ∀ h ∈ w.history, w.TickOk i h
  | .call (.setStatus id enable) =>
      id = i → ∀ h ∈ w.history, h.oneShot = true → (enable = true ↔ h.raised = 0)
  | _ => True

instance (i : Nat) (w : Watched) (h : History) : Decidable (w.TickOk i h) :=
  inferInstanceAs (Decidable (_ → _))

instance (i : Nat) (w : Watched) : (a : Action) → Decidable (w.StepOk i a)
  | .tick => inferInstanceAs (Decidable (∀ h ∈ w.history, w.TickOk i h))
  | .call (.setStatus id enable) =>
      inferInstanceAs (Decidable (id = i → ∀ h ∈ w.history, h.oneShot = true →
        (enable = true ↔ h.raised = 0)))
  | .call (.start _) | .call (.read _) | .call (.delay _ _) | .call (.setMatchInt _ _ _)
  | .call (.getFlag _ _) | .call (.getStatus _) | .main => inferInstanceAs (Decidable True)

end Watched

end Vtmr
