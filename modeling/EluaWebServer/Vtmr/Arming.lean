import EluaWebServer.Vtmr.Single

/-!
# Arming a timer

`vtmr_set_match_int` between its accesses: which of the timer's variables are
as it sets them.
-/

namespace Vtmr

/-- The accesses of `vtmr_set_match_int` when it arms the timer. -/
def arming (i : Nat) (n : UInt32) (p : Bool) : List Access :=
  [.setLimit i n, .setBit .periodic i p, .setBit .int i false, .setReset i, .awaitReset,
    .setBit .enabled i true, .result PLATFORM_TIMER_INT_OK]

variable {cfg : Platform} {i : Nat} {n : UInt32} {p : Bool} {s s' : System}

theorem vtmrSetMatchInt_eq_arming {us : UInt32} {type : Nat} (hus : us ≠ 0)
    (hfinal : final cfg us ≠ 0) :
    vtmrSetMatchInt cfg i us type =
      arming i (final cfg us) (type ≠ PLATFORM_TIMER_INT_ONESHOT) := by
  rw [vtmrSetMatchInt, if_neg hus, if_neg hfinal]
  rfl

theorem mem_arming {a : Access} :
    a ∈ arming i n p ↔ a = .setLimit i n ∨ a = .setBit .periodic i p ∨ a = .setBit .int i false ∨
      a = .setReset i ∨ a = .awaitReset ∨ a = .setBit .enabled i true ∨
      a = .result PLATFORM_TIMER_INT_OK := by
  simp only [arming, List.mem_cons, List.not_mem_nil, or_false]

/-- What the accesses that have been made have set. -/
structure Arming (i : Nat) (n : UInt32) (p : Bool) (s : System) : Prop where
  inCall : s.InCall
  todo : s.todo <:+ arming i n p
  limit : .setLimit i n ∉ s.todo → (s.vars.timer i).limit = n
  periodic : .setBit .periodic i p ∉ s.todo → (s.vars.timer i).periodic = p

theorem Access.onTimer_limit {a : Access} (h : a ∈ arming i n p) (l : Option UInt8) (t : Timer) :
    (a.onTimer l i t).limit = if a = .setLimit i n then n else t.limit := by
  rw [mem_arming] at h
  rcases h with rfl | rfl | rfl | rfl | rfl | rfl | rfl
  · simp [onTimer]
  all_goals cases l <;> simp [onTimer]

theorem Access.onTimer_periodic {a : Access} (h : a ∈ arming i n p) (l : Option UInt8)
    (t : Timer) :
    (a.onTimer l i t).periodic =
      if a = .setBit .periodic i p ∧ l ≠ none then p else t.periodic := by
  rw [mem_arming] at h
  rcases h with rfl | rfl | rfl | rfl | rfl | rfl | rfl
  all_goals cases l <;> simp [onTimer, Timer.setBit]

theorem Access.onTimer_flag {a : Access} (h : a ∈ arming i n p) (l : Option UInt8) (t : Timer) :
    (a.onTimer l i t).flag = if a = .setBit .int i false ∧ l ≠ none then false else t.flag := by
  rw [mem_arming] at h
  rcases h with rfl | rfl | rfl | rfl | rfl | rfl | rfl
  all_goals cases l <;> simp [onTimer, Timer.setBit]

theorem Access.onTimer_enabled {a : Access} (h : a ∈ arming i n p) (l : Option UInt8)
    (t : Timer) :
    (a.onTimer l i t).enabled =
      if a = .setBit .enabled i true ∧ l ≠ none then true else t.enabled := by
  rw [mem_arming] at h
  rcases h with rfl | rfl | rfl | rfl | rfl | rfl | rfl
  all_goals cases l <;> simp [onTimer, Timer.setBit]

@[simp] theorem Access.onTimer_counter (a : Access) (l : Option UInt8) (t : Timer) :
    (a.onTimer l i t).counter = t.counter := by
  cases a with
  | setBit f id set => cases l <;> simp [onTimer]
  | setLimit id final =>
      simp only [onTimer]
      split <;> rfl
  | _ => rfl

/-- A bit that is written after an access was written before it, unless the
access writes it. -/
theorem System.not_mem_todo {a : Access} {rest : List Access} {f : Flags} {id : Nat} {set : Bool}
    (htodo : s.todo = a :: rest) (hdone : .setBit f id set ∉ (s.access a rest).todo)
    (hnot : ¬ (a = .setBit f id set ∧ s.loaded ≠ none)) : .setBit f id set ∉ s.todo := by
  by_cases ha : a = .setBit f id set
  · -- the byte is only loaded
    subst ha
    have hnone : s.loaded = none := by simpa using hnot
    simp only [access, hnone] at hdone
    exact hdone
  · rcases access_todo s a rest with heq | heq
    · rw [heq] at hdone
      rw [htodo, List.mem_cons, not_or]
      exact ⟨Ne.symm ha, hdone⟩
    · rw [heq] at hdone
      exact hdone

/-- The variables are set while the timers count. -/
theorem Arming.tick (h : Arming i n p s) (hi : i < cfg.VTMR_NUM_TIMERS) :
    Arming i n p { s with vars := (s.vars.cmnVirtualTimerCb cfg).1 } := by
  have htimer := Vars.timer_cmnVirtualTimerCb s.vars hi
  refine ⟨h.inCall.step (show s.step cfg .tick = _ from rfl), h.todo, ?_, ?_⟩
  · intro hdone
    have hlimit : ((s.vars.cmnVirtualTimerCb cfg).1.timer i).limit = (s.vars.timer i).limit := by
      rw [htimer]
      split <;> exact Timer.tick_limit _
    exact hlimit.trans (h.limit hdone)
  · intro hdone
    have hperiodic : ((s.vars.cmnVirtualTimerCb cfg).1.timer i).periodic =
        (s.vars.timer i).periodic := by
      rw [htimer]
      split <;> exact Timer.tick_periodic _
    exact hperiodic.trans (h.periodic hdone)

/-- An access sets its variable. -/
theorem Arming.access {a : Access} {rest : List Access} (h : Arming i n p s)
    (htodo : s.todo = a :: rest) : Arming i n p (s.access a rest) := by
  have hmem : a ∈ arming i n p := h.todo.subset (by rw [htodo]; exact List.mem_cons_self)
  have hrest : rest <:+ arming i n p := (htodo ▸ List.suffix_cons a rest).trans h.todo
  have htimer := System.timer_access s a rest i
  refine ⟨h.inCall.access htodo, ?_, ?_, ?_⟩
  · rcases System.access_todo s a rest with heq | heq
    · rw [heq]
      exact hrest
    · rw [heq]
      exact h.todo
  · intro hdone
    rw [htimer, Access.onTimer_limit hmem]
    split
    · rfl
    · rename_i hne
      apply h.limit
      rcases System.access_todo s a rest with heq | heq
      · rw [heq] at hdone
        rw [htodo, List.mem_cons, not_or]
        exact ⟨Ne.symm hne, hdone⟩
      · rw [heq] at hdone
        exact hdone
  · intro hdone
    rw [htimer, Access.onTimer_periodic hmem]
    split
    · rfl
    · rename_i hne
      exact h.periodic (System.not_mem_todo htodo hdone hne)

/-- Ticks and accesses of the main program. -/
theorem Arming.run {actions : List Action} (h : Arming i n p s) (hi : i < cfg.VTMR_NUM_TIMERS)
    (hmain : ∀ a ∈ actions, a = .main ∨ a = .tick)
    (hrun : Transition.run (System.step cfg) s actions = some s') : Arming i n p s' := by
  induction actions generalizing s with
  | nil =>
      simp only [Transition.run, Option.some.injEq] at hrun
      exact hrun ▸ h
  | cons a as ih =>
      simp only [Transition.run, Option.bind_eq_some_iff] at hrun
      obtain ⟨s₁, h₁, hrest⟩ := hrun
      have has : ∀ a ∈ as, a = .main ∨ a = .tick := fun x hx => hmain x (List.mem_cons_of_mem _ hx)
      obtain ⟨rfl, rfl⟩ | ⟨c, rfl, -⟩ | ⟨x, rest, rfl, htodo, rfl⟩ := System.step_cases h₁
      · exact ih (h.tick hi) has hrest
      · cases hmain _ List.mem_cons_self with
        | inl heq => cases heq
        | inr heq => cases heq
      · exact ih (h.access htodo) has hrest

/-- While the reset is pending, the limit and the type are set. -/
theorem Arming.pending (h : Arming i n p s) (hreset : s.vars.resetIdx ≠ none) :
    s.todo = (arming i n p).drop 4 ∧ (s.vars.timer i).limit = n ∧
      (s.vars.timer i).periodic = p := by
  have hhead := h.inCall.reset hreset
  have htodo : s.todo = (arming i n p).drop 4 := by
    have hsuffix := h.todo
    simp only [arming, List.suffix_cons_iff, List.suffix_nil] at hsuffix
    rcases hsuffix with heq | heq | heq | heq | heq | heq | heq | heq
    all_goals first
      | exact heq
      | (rw [heq] at hhead
         cases hhead)
  refine ⟨htodo, h.limit ?_, h.periodic ?_⟩
  · simp [htodo, arming]
  · simp [htodo, arming]

end Vtmr
