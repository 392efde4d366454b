import EluaWebServer.Vtmr.Arming

/-!
# The period of a cyclic timer

A timer that is armed as cyclic raises its interrupt at every `final`-th tick
after the one that reset its counter, whatever the main program does with the
other timers.
-/

namespace Vtmr

/-- The access neither resets the timer nor changes when it raises its
interrupt. -/
def Access.Spares (i : Nat) : Access → Prop
  | .setLimit id _ => id ≠ i
  | .setBit f id set => id = i → f = .int ∨ (f = .enabled ∧ set = true)
  | .setReset id => id ≠ i
  | _ => True

/-- The call neither resets nor reconfigures the timer, and leaves its
interrupt enabled. -/
def Call.Spares (i : Nat) : Call → Prop
  | .start id | .delay id _ | .setMatchInt id _ _ => id ≠ i
  | .setStatus id enable => id = i → enable = true
  | .read _ | .getFlag _ _ | .getStatus _ => True

def Action.Spares (i : Nat) : Action → Prop
  | .call c => c.Spares i
  | .tick | .main => True

theorem Call.Spares.accesses {cfg : Platform} {i : Nat} {c : Call} (h : c.Spares i) :
    ∀ a ∈ c.accesses cfg, a.Spares i := by
  cases c with
  | setMatchInt id us type =>
      have hne : id ≠ i := h
      simp only [Call.accesses, vtmrSetMatchInt]
      split
      · simp [Access.Spares, hne]
      · split
        · simp [Access.Spares]
        · simp [vtmrResetTimer, Access.Spares, hne]
  | getFlag id clear =>
      cases clear with
      | false => simp [Call.accesses, vtmrIntGetFlag, Access.Spares]
      | true => simp [Call.accesses, vtmrIntGetFlag, Access.Spares]
  | setStatus id enable =>
      have henable : id = i → enable = true := h
      simpa [Call.accesses, vtmrIntSetStatus, Access.Spares] using henable
  | start id =>
      have hne : id ≠ i := h
      simp [Call.accesses, vtmrResetTimer, Access.Spares, hne]
  | delay id us =>
      have hne : id ≠ i := h
      simp [Call.accesses, vtmrDelay, vtmrResetTimer, Access.Spares, hne]
  | read id => simp [Call.accesses, Access.Spares]
  | getStatus id => simp [Call.accesses, vtmrIntGetStatus, Access.Spares]

/-- The timer is cyclic with the given limit, and so many ticks have passed
since its counter was reset.  A byte that the main program has loaded agrees
with the timer's bits. -/
structure Paced (i : Nat) (n : UInt32) (k : Nat) (s : System) : Prop where
  inCall : s.InCall
  counter : (s.vars.timer i).counter.toNat = k % n.toNat
  limit : (s.vars.timer i).limit = n
  periodic : (s.vars.timer i).periodic = true
  reset : s.vars.resetIdx ≠ some i
  spares : ∀ a ∈ s.todo, a.Spares i
  agrees : ∀ b f id set, s.loaded = some b → s.todo.head? = some (.setBit f id set) → f ≠ .int →
    i >>> 3 = id >>> 3 → Packed.bit b i = (s.vars.timer i).bit f

variable {cfg : Platform} {i : Nat} {n : UInt32} {k : Nat} {s s' : System}

theorem add_one_mod (k : Nat) {m : Nat} (hm : 0 < m) :
    (k + 1) % m = if k % m + 1 = m then 0 else k % m + 1 := by
  have hlt : k % m < m := Nat.mod_lt _ hm
  rw [← Nat.mod_add_mod]
  split
  · rename_i hend
    rw [hend, Nat.mod_self]
  · exact Nat.mod_eq_of_lt (by omega)

theorem toNat_pos {n : UInt32} (hn : n ≠ 0) : 0 < n.toNat :=
  Nat.pos_of_ne_zero fun h => hn (UInt32.toNat_inj.mp h)

/-- The next value of the counter. -/
theorem Paced.counter_add_one (h : Paced i n k s) (hn : n ≠ 0) :
    ((s.vars.timer i).counter + 1).toNat = k % n.toNat + 1 := by
  have hlt : k % n.toNat < n.toNat := Nat.mod_lt _ (toNat_pos hn)
  have hsmall := n.toNat_lt
  rw [UInt32.toNat_add, h.counter]
  exact Nat.mod_eq_of_lt (by rw [UInt32.toNat_one]; omega)

/-- The counter is at the limit with the next tick exactly at the end of a
period. -/
theorem Paced.due_iff (h : Paced i n k s) (hn : n ≠ 0) :
    (s.vars.timer i).due = true ↔ k % n.toNat + 1 = n.toNat := by
  have hlt : k % n.toNat < n.toNat := Nat.mod_lt _ (toNat_pos hn)
  rw [Timer.due, h.limit, decide_eq_true_eq, ge_iff_le, UInt32.le_iff_toNat_le,
    h.counter_add_one hn]
  omega

/-- A tick keeps the timer's pace and whether it is enabled. -/
theorem Paced.tick (h : Paced i n k s) (hn : n ≠ 0) (hi : i < cfg.VTMR_NUM_TIMERS) :
    Paced i n (k + 1) { s with vars := (s.vars.cmnVirtualTimerCb cfg).1 } ∧
    ((s.vars.cmnVirtualTimerCb cfg).1.timer i).enabled = (s.vars.timer i).enabled := by
  have htimer : (s.vars.cmnVirtualTimerCb cfg).1.timer i = (s.vars.timer i).tick.1 := by
    rw [Vars.timer_cmnVirtualTimerCb _ hi, if_neg h.reset]
  have hnext := add_one_mod k (toNat_pos hn)
  have htick : ∃ m f, (s.vars.timer i).tick.1 = { s.vars.timer i with counter := m, flag := f } ∧
      m.toNat = (k + 1) % n.toNat := by
    cases hdue : (s.vars.timer i).due with
    | true =>
        rw [Timer.tick_of_due hdue, if_pos h.periodic]
        rw [if_pos ((h.due_iff hn).mp hdue)] at hnext
        exact ⟨0, true, rfl, hnext.symm⟩
    | false =>
        rw [Timer.tick_of_not_due hdue]
        rw [if_neg (by rw [← h.due_iff hn, hdue]; exact nofun)] at hnext
        exact ⟨(s.vars.timer i).counter + 1, (s.vars.timer i).flag, rfl,
          (h.counter_add_one hn).trans hnext.symm⟩
  obtain ⟨m, f, hafter, hm⟩ := htick
  rw [← htimer] at hafter
  refine ⟨⟨h.inCall.step (show s.step cfg .tick = _ from rfl), ?_, ?_, ?_, ?_, h.spares, ?_⟩, ?_⟩
  · rw [hafter]
    exact hm
  · rw [hafter]
    exact h.limit
  · rw [hafter]
    exact h.periodic
  · rw [Vars.resetIdx_cmnVirtualTimerCb]
    exact nofun
  · intro b g id set hb htodo hg hbyte
    rw [h.agrees b g id set hb htodo hg hbyte, hafter]
    cases g with
    | periodic => rfl
    | enabled => rfl
    | int => exact absurd rfl hg
  · rw [hafter]

/-- An access that spares the timer leaves its pace, and does not disable it. -/
theorem Paced.onTimer {a : Access} {rest : List Access} (h : Paced i n k s)
    (htodo : s.todo = a :: rest) :
    ∃ e f, a.onTimer s.loaded i (s.vars.timer i) =
        { s.vars.timer i with enabled := e, flag := f } ∧
      ((s.vars.timer i).enabled = true → e = true) := by
  have hspares : a.Spares i := h.spares a (by rw [htodo]; exact List.mem_cons_self)
  have hsame : ∃ e f, s.vars.timer i = { s.vars.timer i with enabled := e, flag := f } ∧
      ((s.vars.timer i).enabled = true → e = true) := ⟨_, _, rfl, id⟩
  cases a with
  | setLimit id final =>
      rw [Access.onTimer, if_neg (Ne.symm hspares)]
      exact hsame
  | setBit f id set =>
      cases hl : s.loaded with
      | none => exact hsame
      | some b =>
          simp only [Access.onTimer]
          by_cases hid : i = id
          · subst hid
            rw [if_pos rfl]
            rcases hspares rfl with rfl | ⟨rfl, rfl⟩
            · exact ⟨_, set, rfl, fun h => h⟩
            · exact ⟨true, _, rfl, fun _ => rfl⟩
          · rw [if_neg hid]
            by_cases hint : f = .int
            · subst hint
              exact ⟨_, _, rfl, fun h => h⟩
            · have hbit : (if i >>> 3 = id >>> 3 then Packed.bit b i else (s.vars.timer i).bit f) =
                  (s.vars.timer i).bit f := by
                split
                · rename_i hbyte
                  exact h.agrees b f id set hl (by rw [htodo]; rfl) hint hbyte
                · rfl
              rw [hbit, Timer.setBit_bit]
              exact hsame
  | testBit f id => exact hsame
  | readCounter id => exact hsame
  | setReset id => exact hsame
  | awaitReset => exact hsame
  | awaitCounter id final => exact hsame
  | result r => exact hsame

/-- An access of the main program that spares the timer. -/
theorem Paced.access {a : Access} {rest : List Access} (h : Paced i n k s)
    (htodo : s.todo = a :: rest) :
    Paced i n k (s.access a rest) ∧
    ((s.vars.timer i).enabled = true → ((s.access a rest).vars.timer i).enabled = true) := by
  obtain ⟨e, f, hafter, henabled⟩ := h.onTimer htodo
  rw [← System.timer_access s a rest] at hafter
  have hspares : ∀ x ∈ (s.access a rest).todo, x.Spares i := by
    intro x hx
    rcases System.access_todo s a rest with hrest | hsame
    · rw [hrest] at hx
      exact h.spares x (by rw [htodo]; exact List.mem_cons_of_mem _ hx)
    · rw [hsame] at hx
      exact h.spares x hx
  refine ⟨⟨h.inCall.access htodo, ?_, ?_, ?_, ?_, hspares, ?_⟩, ?_⟩
  · rw [hafter]
    exact h.counter
  · rw [hafter]
    exact h.limit
  · rw [hafter]
    exact h.periodic
  · rcases System.resetIdx_access s a rest with hsame | ⟨id, rfl, hnew⟩
    · rw [hsame]
      exact h.reset
    · rw [hnew]
      intro heq
      have hne : (Access.setReset id).Spares i := h.spares _ (by rw [htodo]; exact List.mem_cons_self)
      exact hne (Option.some.inj heq)
  · intro b f id set hb hhead _ hbyte
    exact h.inCall.bit_loaded htodo hb hhead hbyte
  · rw [hafter]
    exact henabled

/-- A step that is not a tick. -/
theorem Paced.step {a : Action} (h : Paced i n k s) (hspares : a.Spares i) (htick : a ≠ .tick)
    (hstep : s.step cfg a = some s') :
    Paced i n k s' ∧
    ((s.vars.timer i).enabled = true → (s'.vars.timer i).enabled = true) := by
  obtain ⟨rfl, -⟩ | ⟨c, rfl, hidle, -, rfl⟩ | ⟨x, rest, rfl, htodo, rfl⟩ :=
    System.step_cases hstep
  · exact absurd rfl htick
  · refine ⟨⟨h.inCall.step hstep, h.counter, h.limit, h.periodic, h.reset,
      Call.Spares.accesses hspares, ?_⟩, fun h => h⟩
    intro b f id set hb
    have hnone : s.loaded = none := by
      by_contra hsome
      obtain ⟨f, id, set, hhead⟩ := h.inCall.loaded hsome
      rw [hidle] at hhead
      cases hhead
    cases hnone.symm.trans hb
  · exact h.access htodo

/-- Any number of steps, with so many ticks among them. -/
theorem Paced.run {actions : List Action} (h : Paced i n k s) (hn : n ≠ 0)
    (hi : i < cfg.VTMR_NUM_TIMERS) (hspares : ∀ a ∈ actions, a.Spares i)
    (hrun : Transition.run (System.step cfg) s actions = some s') :
    Paced i n (k + actions.count .tick) s' ∧
    ((s.vars.timer i).enabled = true → (s'.vars.timer i).enabled = true) := by
  induction actions generalizing s k with
  | nil =>
      simp only [Transition.run, Option.some.injEq] at hrun
      subst hrun
      exact ⟨h, fun h => h⟩
  | cons a as ih =>
      simp only [Transition.run, Option.bind_eq_some_iff] at hrun
      obtain ⟨s₁, h₁, hrest⟩ := hrun
      have has : ∀ a ∈ as, a.Spares i := fun x hx => hspares x (List.mem_cons_of_mem _ hx)
      by_cases ha : a = .tick
      · subst ha
        obtain rfl := Option.some.inj h₁
        obtain ⟨hpaced, henabled⟩ := h.tick hn hi
        obtain ⟨hend, hkeeps⟩ := ih hpaced has hrest
        rw [List.count_cons_self, Nat.add_comm (as.count _), ← Nat.add_assoc]
        refine ⟨hend, fun h => hkeeps ?_⟩
        rw [henabled]
        exact h
      · obtain ⟨hpaced, henabled⟩ := h.step (hspares a List.mem_cons_self) ha h₁
        obtain ⟨hend, hkeeps⟩ := ih hpaced has hrest
        rw [List.count_cons_of_ne ha]
        exact ⟨hend, fun h => hkeeps (henabled h)⟩

/-- The state after the tick that resets the counter of a timer that
`vtmr_set_match_int` arms, in any run. -/
def ResetBy (cfg : Platform) (i : Nat) (us : UInt32) (type : Nat) (s : System) : Prop :=
  ∃ earlier accesses s₁ s₂ s₃,
    Transition.run (System.step cfg) .init earlier = some s₁ ∧
    s₁.step cfg (.call (.setMatchInt i us type)) = some s₂ ∧
    (∀ a ∈ accesses, a = .main ∨ a = .tick) ∧
    Transition.run (System.step cfg) s₂ accesses = some s₃ ∧
    s₃.vars.resetIdx = some i ∧ s₃.step cfg .tick = some s

/-- A cyclic timer whose counter has been reset. -/
theorem ResetBy.paced {us : UInt32} {type : Nat} (h : ResetBy cfg i us type s)
    (hfinal : final cfg us ≠ 0) (htype : type ≠ PLATFORM_TIMER_INT_ONESHOT) :
    Paced i (final cfg us) 0 s ∧ i < cfg.VTMR_NUM_TIMERS := by
  obtain ⟨earlier, accesses, s₁, s₂, s₃, hearlier, hcall, hmain, hrun, hreset, htick⟩ := h
  have hinCall := System.InCall.of_run hearlier
  have hinCall₂ := hinCall.step hcall
  simp only [System.step, Option.ite_none_right_eq_some, Option.some.injEq] at hcall
  obtain ⟨⟨hidle, hid⟩, rfl⟩ := hcall
  have hi : i < cfg.VTMR_NUM_TIMERS := hid
  have hus : us ≠ 0 := by
    intro hzero
    exact hfinal (by simp [hzero, final])
  have harming : Arming i (final cfg us) true
      { s₁ with todo := (Call.setMatchInt i us type).accesses cfg } := by
    have haccesses : (Call.setMatchInt i us type).accesses cfg = arming i (final cfg us) true := by
      have htype' : decide (type ≠ PLATFORM_TIMER_INT_ONESHOT) = true := by simpa using htype
      rw [← htype']
      exact vtmrSetMatchInt_eq_arming hus hfinal
    rw [haccesses] at hinCall₂ ⊢
    refine ⟨hinCall₂, List.suffix_rfl, fun hdone => ?_, fun hdone => ?_⟩
    · exact absurd (mem_arming.mpr (.inl rfl)) hdone
    · exact absurd (mem_arming.mpr (.inr (.inl rfl))) hdone
  have hend := harming.run hi hmain hrun
  obtain ⟨htodo, hlimit, hperiodic⟩ := hend.pending (by rw [hreset]; intro h; cases h)
  obtain rfl := Option.some.inj htick
  have htimer := Vars.timer_cmnVirtualTimerCb s₃.vars hi
  rw [if_pos hreset] at htimer
  have hloaded : s₃.loaded = none := hend.inCall.loaded_eq_none htodo
    (by intro f id set h; cases h)
  refine ⟨⟨hend.inCall.step (show s₃.step cfg .tick = _ from rfl), ?_, ?_, ?_, ?_, ?_, ?_⟩, hi⟩
  · rw [htimer]
    exact (Nat.zero_mod _).symm
  · rw [htimer]
    exact (Timer.tick_limit _).trans hlimit
  · rw [htimer]
    exact (Timer.tick_periodic _).trans hperiodic
  · rw [Vars.resetIdx_cmnVirtualTimerCb]
    intro h
    cases h
  · rw [htodo]
    simp [arming, Access.Spares]
  · intro b f id set hb
    cases hloaded.symm.trans hb

/-- **The period of a cyclic timer.**  When the interrupt of a timer that was
armed as cyclic is enabled before the tick after the one that reset its
counter, the callback calls `elua_int_add` for it on every `final`-th tick,
counted from that one, and on no other, whatever is done with the other
timers. -/
theorem cyclic_period {us : UInt32} {type : Nat} {settle actions : List Action}
    {s₀ s₁ s : System} (hreset : ResetBy cfg i us type s₀) (hfinal : final cfg us ≠ 0)
    (htype : type ≠ PLATFORM_TIMER_INT_ONESHOT)
    (hsettle : Transition.run (System.step cfg) s₀ settle = some s₁)
    (hnoTick : .tick ∉ settle) (henabled : s₁.vars.test .enabled i = true)
    (hrun : Transition.run (System.step cfg) s₁ actions = some s)
    (hspares : ∀ a ∈ settle ++ actions, a.Spares i) :
    i + VTMR_FIRST_ID ∈ (s.vars.cmnVirtualTimerCb cfg).2 ↔
      (final cfg us).toNat ∣ actions.count .tick + 1 := by
  obtain ⟨hpaced, hi⟩ := hreset.paced hfinal htype
  have hfirst := (hpaced.run hfinal hi
    (fun a ha => hspares a (List.mem_append_left _ ha)) hsettle).1
  rw [List.count_eq_zero_of_not_mem hnoTick] at hfirst
  obtain ⟨hnow, hkeeps⟩ := hfirst.run hfinal hi
    (fun a ha => hspares a (List.mem_append_right _ ha)) hrun
  have hon : (s.vars.timer i).enabled = true := hkeeps henabled
  rw [Nat.zero_add] at hnow
  have hpos := toNat_pos hfinal
  have hdue : (s.vars.timer i).due = true ↔ (final cfg us).toNat ∣ actions.count .tick + 1 := by
    rw [hnow.due_iff hfinal, Nat.dvd_iff_mod_eq_zero, add_one_mod _ hpos]
    split
    · simp [*]
    · simp [*]
  rw [Vars.mem_cmnVirtualTimerCb, ← hdue]
  cases h : (s.vars.timer i).due with
  | true => simp [Timer.tick_of_due h, hi, hon, hnow.periodic]
  | false => simp [Timer.tick_of_not_due h]

/-- Timer 1 of four is armed with a period of two ticks, and timer 2 while it
counts: the second tick raises its interrupt. -/
theorem cyclic_period_two :
    ∃ s, Transition.run (System.step ⟨4, 4, by decide⟩) .init
        ([.call (.setMatchInt 1 500000 PLATFORM_TIMER_INT_CYCLIC)] ++ List.replicate 6 .main ++
          [.tick] ++ List.replicate 4 .main ++
          [.call (.setMatchInt 2 250000 PLATFORM_TIMER_INT_ONESHOT), .main, .main, .tick]) =
          some s ∧
      (1 + VTMR_FIRST_ID ∈ (s.vars.cmnVirtualTimerCb ⟨4, 4, by decide⟩).2 ↔ 2 ∣ 1 + 1) :=
  ⟨_, rfl, @cyclic_period ⟨4, 4, by decide⟩ 1 500000 PLATFORM_TIMER_INT_CYCLIC
    (List.replicate 4 .main)
    [.call (.setMatchInt 2 250000 PLATFORM_TIMER_INT_ONESHOT), .main, .main, .tick] _ _ _
    ⟨[], List.replicate 6 .main, _, _, _, rfl, rfl, by decide, rfl, rfl, rfl⟩ (by decide) (by decide)
    rfl (by decide) (by decide) rfl (by simp [Action.Spares, Call.Spares])⟩

end Vtmr
