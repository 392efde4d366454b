import EluaWebServer.Interrupt.Invariant

/-!
# Delivery of interrupts

Runs in which Lua code runs on the main Lua state only, handlers return and
nobody else sets hooks.  Interrupts are dequeued in the order in which they were
accepted, and the others are in the occupied slots; between the freeing of a
slot and the move of the read index, these begin behind the freed slot.
-/

namespace Interrupt

/-- The hook fires on the main Lua state only, handlers return and no other code
sets hooks. -/
def MainOnly (_ : System) : Action → Prop
  | .fire l => l = mainState
  | .handlerFails _ => False
  | .otherHook _ => False
  | _ => True

instance (s : System) : (a : Action) → Decidable (MainOnly s a)
  | .fire l => inferInstanceAs (Decidable (l = mainState))
  | .handlerFails _ | .otherHook _ => inferInstanceAs (Decidable False)
  | .opened | .closed | .enable _ | .disable _ | .add _ _ | .hook _ | .handlerReturns
  | .newThread _ | .threadEnds _ => inferInstanceAs (Decidable True)

/-- What holds of a queue that delivers exactly once and in order. -/
structure Delivered (cfg : Platform) (s : System) : Prop where
  order : s.accepted = s.dequeued ++ s.left cfg
  hooked : s.frames = [] → s.left cfg ≠ [] → mainState ∈ s.hooked
  nonempty : ∀ f ∈ s.frames, f.pc = .entered → (current s.queue).id ≠ ELUA_INT_EMPTY_SLOT
  refused : ∀ inttype resnum, validId cfg inttype = true →
    eluaIntIsEnabled s.queue inttype = true →
    (eluaIntAdd cfg s.queue s.running inttype resnum).2 = .PLATFORM_ERR →
    ∀ i, i < slots cfg → (s.queue.slot i).id ≠ ELUA_INT_EMPTY_SLOT

variable {cfg : Platform} {runs : Nat → Bool} {s s' : System} {rest : List Element}

/-- A hook execution begins at an occupied slot. -/
theorem Inv.current_of_entered (h : Inv cfg runs s rest) :
    ∀ f ∈ s.frames, f.pc = .entered → (current s.queue).id ≠ ELUA_INT_EMPTY_SLOT := by
  intro f hf hpc
  have htop := h.top
  have houter := h.outer
  obtain ⟨r, hr, hread⟩ := h.readIdx
  cases hframes : s.frames with
  | nil => exact absurd (hframes ▸ hf) List.not_mem_nil
  | cons g fs =>
      rw [hframes] at hf htop houter hr
      rcases List.mem_cons.mp hf with rfl | hf
      · obtain ⟨l, pc⟩ := f
        subst hpc
        obtain ⟨e, rest', rfl⟩ := List.exists_cons_of_ne_nil htop
        replace hr : r = s.dequeued.length := hr
        rw [current, hread, hr]
        have hfirst := h.queued.holds.1
        rw [hfirst]
        exact h.queued.taken e List.mem_cons_self
      · have hcalling := houter f hf
        rw [hpc] at hcalling
        cases hcalling

/-- An enabled interrupt is refused only by a full queue. -/
theorem Inv.full_of_refused (h : Inv cfg runs s rest) {inttype : UInt8} {resnum : UInt16}
    (hvalid : validId cfg inttype = true) (henabled : eluaIntIsEnabled s.queue inttype = true)
    (herr : (eluaIntAdd cfg s.queue s.running inttype resnum).2 = .PLATFORM_ERR) :
    ∀ i, i < slots cfg → (s.queue.slot i).id ≠ ELUA_INT_EMPTY_SLOT := by
  have hrunning := h.running_of_enabled henabled
  by_cases hfull : (s.queue.slot s.queue.writeIdx).id ≠ ELUA_INT_EMPTY_SLOT
  · exact fun i hi => h.queued.slot_of_full (h.queued.full_iff.mp hfull) hi
  · simp only [eluaIntAdd, hvalid, henabled, hrunning, if_neg hfull] at herr
    simp at herr

theorem Inv.delivered (h : Inv cfg runs s rest) : Delivered cfg s := by
  refine ⟨?_, fun _ hleft => h.main (h.left_eq ▸ hleft), h.current_of_entered,
    fun inttype resnum hvalid henabled herr => h.full_of_refused hvalid henabled herr⟩
  rw [h.left_eq]
  exact h.accepted

/-- On the main Lua state alone every such step keeps the invariant. -/
theorem Inv.step_main {a : Action} (h : Inv cfg (· == mainState) s rest) (hok : MainOnly s a)
    (hstep : System.step cfg s a = some s') : ∃ rest', Inv cfg (· == mainState) s' rest' := by
  refine h.step ?_ hstep
  cases a with
  | fire l => exact beq_iff_eq.mpr hok
  | hook handler =>
      intro hfreeing _ l' _ hl'
      unfold System.freeing at hfreeing
      split at hfreeing
      · rename_i l crt fs hframes
        -- the hook execution is itself on the main Lua state
        have hexec : l ∈ s.executing := by
          rw [System.executing, hframes]
          exact List.mem_cons_self
        have hl := beq_iff_eq.mp (h.within l hexec)
        rw [beq_iff_eq.mp hl', ← hl]
        exact hexec
      · cases hfreeing
  | handlerFails dead => exact absurd hok id
  | newThread creator =>
      intro _ hruns
      have hzero : s.threads = mainState := beq_iff_eq.mp hruns
      have hpos := h.threads
      rw [hzero] at hpos
      exact absurd hpos (Nat.lt_irrefl 0)
  | otherHook l => exact absurd hok id
  | opened | closed | enable _ | disable _ | add _ _ | handlerReturns | threadEnds _ => trivial

/-- **Exactly once, in order.**  The interrupts dequeued and those left in the
queue are the accepted ones, in order; the hook is installed while there are
any, does not run when there are none, and only a full queue refuses. -/
theorem int_delivered {actions : List Action}
    (hok : Transition.Conforming (System.step cfg) MainOnly System.init actions)
    (hrun : Transition.run (System.step cfg) System.init actions = some s) :
    Delivered cfg s := by
  obtain ⟨rest, h⟩ := Inv.of_run (fun _ _ _ _ h => h.step_main) hok hrun
  exact h.delivered

/-- Two interrupts, the second between the freeing of the slot of the first and
the move of the read index. -/
theorem int_delivered_two_interrupts :
    ∃ s, Transition.run (System.step ⟨5, 20⟩) System.init
        [.opened, .enable 3, .add 3 7, .fire mainState, .hook true, .hook true, .add 3 8] = some s ∧
      Delivered ⟨5, 20⟩ s :=
  ⟨_, rfl, @int_delivered ⟨5, 20⟩ _
    [.opened, .enable 3, .add 3 7, .fire mainState, .hook true, .hook true, .add 3 8]
    (by decide) rfl⟩

/-! ## The occupied slots from the read index on -/

/-- The statement of the hook with which an interrupt counts as dequeued. -/
inductive Instant where
  | copying
  | freeing
  | moving

/-- The interrupts dequeued so far. -/
def System.dequeuedAt (s : System) : Instant → List Element
  | .copying =>
      match s.frames with
      | ⟨_, .copied crt⟩ :: _ => s.dequeued ++ [crt]
      | _ => s.dequeued
  | .freeing => s.dequeued
  | .moving =>
      match s.frames with
      | ⟨_, .freed _⟩ :: _ => s.dequeued.dropLast
      | _ => s.dequeued

/-- The interrupts left, taken from the read index on at all times. -/
def LeftFromRead (cfg : Platform) (instant : Instant) (s : System) : Prop :=
  s.accepted = s.dequeuedAt instant ++ occupied cfg s.queue s.queue.readIdx

instance (cfg : Platform) (instant : Instant) (s : System) :
    Decidable (LeftFromRead cfg instant s) :=
  inferInstanceAs (Decidable (_ = _))

/-- Whichever the instant, some run has the occupied slots from the read index
on in another order than accepted; and a queue of 512 slots refuses when 256 of
them are occupied. -/
theorem int_not_from_read_index :
    (¬ ∃ instant, ∀ (cfg : Platform) (actions : List Action) (s : System),
      Transition.Conforming (System.step cfg) MainOnly System.init actions →
      Transition.run (System.step cfg) System.init actions = some s →
      LeftFromRead cfg instant s) ∧
    ¬ ∀ (cfg : Platform) (actions : List Action) (s : System),
      Transition.Conforming (System.step cfg) MainOnly System.init actions →
      Transition.run (System.step cfg) System.init actions = some s →
      ∀ inttype resnum, validId cfg inttype = true →
        eluaIntIsEnabled s.queue inttype = true →
        (eluaIntAdd cfg s.queue s.running inttype resnum).2 = .PLATFORM_ERR →
        ∀ i, i < 2 ^ cfg.queueLogSize → (s.queue.slot i).id ≠ ELUA_INT_EMPTY_SLOT := by
  refine ⟨fun ⟨instant, h⟩ => ?_, fun h => ?_⟩
  · cases instant with
    | copying =>
        exact absurd (h ⟨1, 20⟩ [.opened, .enable 3, .add 3 7, .fire mainState, .hook true] _
          (by decide) rfl) (by decide)
    | freeing =>
        exact absurd (h ⟨1, 20⟩ [.opened, .enable 3, .add 3 7, .add 3 8, .fire mainState,
          .hook true, .hook true, .add 3 9] _ (by decide) rfl) (by decide)
    | moving =>
        exact absurd (h ⟨1, 20⟩ [.opened, .enable 3, .add 3 7, .fire mainState, .hook true,
          .hook true] _ (by decide) rfl) (by decide)
  · have hrun := @Option.some_get _ (Transition.run (System.step ⟨9, 20⟩) System.init
      ([.opened, .enable 3] ++ List.replicate 256 (.add 3 7))) (by decide +kernel)
    exact absurd (h ⟨9, 20⟩ _ _ (by decide +kernel) hrun.symm 3 7 (by decide) (by decide +kernel)
      (by decide +kernel) 300 (by decide)) (by decide +kernel)

end Interrupt
