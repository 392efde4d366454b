import EluaWebServer.Interrupt.Delivery

/-!
# Failing handlers and coroutines

Runs in which handlers raise errors, the hook fires on coroutines and other
code sets hooks.  An error that leaves the hook leaves it installed, and so does
a hook that ends on another Lua state than the one that has it.
-/

namespace Interrupt

/-- What holds of a queue that no failing handler and no coroutine has upset. -/
structure Survives (cfg : Platform) (s : System) : Prop where
  nonempty : ∀ f ∈ s.frames, f.pc = .entered → (current s.queue).id ≠ ELUA_INT_EMPTY_SLOT
  order : s.accepted = s.dequeued ++ s.left cfg
  indexes : ∃ r, r + pending s.frames = s.dequeued.length ∧ s.queue.readIdx = r % slots cfg ∧
    s.queue.writeIdx = s.accepted.length % slots cfg ∧
    s.accepted.length ≤ s.dequeued.length + slots cfg
  removed : ∀ l ∈ s.hooked, l ∉ s.executing → s.left cfg ≠ []
  installed : s.left cfg ≠ [] → mainState ∈ s.hooked

/-- When the last interrupt is removed from the queue, no Lua state outside of
the hook has the hook installed; an error leaves the hook, and a coroutine is
made on a Lua state that has it, only while the queue is not empty; and other
code sets hooks on the main Lua state only while it is. -/
def StepOk (cfg : Platform) : System → Action → Prop := Allowed cfg fun _ => true

instance (cfg : Platform) (s : System) : (a : Action) → Decidable (StepOk cfg s a)
  | .fire _ => inferInstanceAs (Decidable (true = true))
  | .hook _ =>
      inferInstanceAs (Decidable (s.freeing = true → (s.left cfg).length = 1 →
        ∀ l ∈ s.hooked, true = true → l ∈ s.executing))
  | .handlerFails dead =>
      inferInstanceAs (Decidable (∀ f ∈ s.frames.head?, dead = false → f.state ∈ s.hooked →
        s.left cfg ≠ []))
  | .newThread creator =>
      inferInstanceAs (Decidable (creator ∈ s.hooked → true = true → s.left cfg ≠ []))
  | .otherHook l => inferInstanceAs (Decidable (l = mainState → s.left cfg = []))
  | .opened | .closed | .enable _ | .disable _ | .add _ _ | .handlerReturns | .threadEnds _ =>
      inferInstanceAs (Decidable True)

variable {cfg : Platform} {s : System}

theorem Inv.survives {rest : List Element} (h : Inv cfg (fun _ => true) s rest) :
    Survives cfg s := by
  obtain ⟨r, hr, hread⟩ := h.readIdx
  have hlen : s.accepted.length = s.dequeued.length + rest.length := by
    rw [h.accepted, List.length_append]
  have hroom := h.queued.room
  refine ⟨h.current_of_entered, ?_, ⟨r, hr, hread, ?_, by omega⟩, ?_, ?_⟩
  · rw [h.left_eq]
    exact h.accepted
  · rw [h.queued.writeIdx, hlen]
  · intro l hl hidle
    rw [h.left_eq]
    exact h.removed l hl rfl hidle
  · rw [h.left_eq]
    exact h.main

/-- **Failing handlers.**  When no step leaves the hook installed on an empty
queue, the hook never runs on an empty slot, the read index does not overtake
the write index, and interrupts are dequeued exactly once, in order. -/
theorem int_survives {actions : List Action}
    (hok : Transition.Conforming (System.step cfg) (StepOk cfg) System.init actions)
    (hrun : Transition.run (System.step cfg) System.init actions = some s) :
    Survives cfg s := by
  obtain ⟨rest, h⟩ := Inv.of_run (fun _ _ _ _ h => h.step) hok hrun
  exact h.survives

/-- A handler fails on a coroutine while a further interrupt is in the queue. -/
theorem int_survives_dead_coroutine :
    ∃ s, Transition.run (System.step ⟨5, 20⟩) System.init
        [.opened, .enable 3, .add 3 7, .add 3 8, .newThread mainState, .fire 1, .hook true,
          .hook true, .hook true, .hook true, .handlerFails true, .fire mainState, .hook true,
          .hook true, .hook true, .hook true, .handlerReturns, .hook true] = some s ∧
      Survives ⟨5, 20⟩ s :=
  ⟨_, rfl, @int_survives ⟨5, 20⟩ _
    [.opened, .enable 3, .add 3 7, .add 3 8, .newThread mainState, .fire 1, .hook true,
      .hook true, .hook true, .hook true, .handlerFails true, .fire mainState, .hook true,
      .hook true, .hook true, .hook true, .handlerReturns, .hook true]
    (by decide +kernel) rfl⟩

/-- After an error in the handler of the only interrupt, the hook runs on an
empty slot. -/
theorem int_not_survives :
    ¬ ∀ (cfg : Platform) (actions : List Action) (s : System),
      Transition.run (System.step cfg) System.init actions = some s → Survives cfg s := by
  intro h
  have hsurvives := h ⟨5, 20⟩ [.opened, .enable 3, .add 3 7, .fire mainState, .hook true,
    .hook true, .hook true, .hook true, .handlerFails false, .fire mainState] _ rfl
  exact absurd (hsurvives.nonempty ⟨mainState, .entered⟩ List.mem_cons_self rfl) (by decide)

end Interrupt
