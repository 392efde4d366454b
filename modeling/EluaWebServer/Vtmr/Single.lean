import EluaWebServer.Vtmr.Timers

/-!
# One timer at a time

The callback does to each timer what it would do if the timer were the only
one, and an access of the main program to the variables of one timer changes
another one only in a byte that was loaded before the other one changed.
-/

namespace Vtmr

/-- What the variables say of one timer. -/
@[ext] structure Timer where
  counter : UInt32
  limit : UInt32
  periodic : Bool
  enabled : Bool
  flag : Bool

namespace Timer

/-- A tick for one timer, and whether it raises the interrupt. -/
def tick (t : Timer) : Timer × Bool :=
  if t.counter + 1 ≥ t.limit then
    if t.periodic then ({ t with counter := 0, flag := true }, t.enabled)
    else ({ t with counter := t.counter + 1, flag := true, enabled := false }, t.enabled)
  else ({ t with counter := t.counter + 1 }, false)

def bit (t : Timer) : Flags → Bool
  | .periodic => t.periodic
  | .enabled => t.enabled
  | .int => t.flag

def setBit (t : Timer) : Flags → Bool → Timer
  | .periodic, b => { t with periodic := b }
  | .enabled, b => { t with enabled := b }
  | .int, b => { t with flag := b }

@[simp] theorem setBit_bit (t : Timer) (f : Flags) : t.setBit f (t.bit f) = t := by
  cases f <;> rfl

@[simp] theorem counter_setBit (t : Timer) (f : Flags) (b : Bool) :
    (t.setBit f b).counter = t.counter := by
  cases f <;> rfl

@[simp] theorem limit_setBit (t : Timer) (f : Flags) (b : Bool) :
    (t.setBit f b).limit = t.limit := by
  cases f <;> rfl

/-- The counter is at the limit with the next tick. -/
def due (t : Timer) : Bool :=
  t.counter + 1 ≥ t.limit

@[simp] theorem tick_limit (t : Timer) : t.tick.1.limit = t.limit := by
  simp only [tick]
  split <;> [split; skip] <;> rfl

@[simp] theorem tick_periodic (t : Timer) : t.tick.1.periodic = t.periodic := by
  simp only [tick]
  split <;> [split; skip] <;> rfl

theorem tick_of_not_due {t : Timer} (h : t.due = false) :
    t.tick = ({ t with counter := t.counter + 1 }, false) := by
  have hlt : ¬ t.counter + 1 ≥ t.limit := by simpa [due] using h
  rw [tick, if_neg hlt]

theorem tick_of_due {t : Timer} (h : t.due = true) :
    t.tick = if t.periodic then ({ t with counter := 0, flag := true }, t.enabled)
      else ({ t with counter := t.counter + 1, flag := true, enabled := false }, t.enabled) := by
  have hle : t.counter + 1 ≥ t.limit := by simpa [due] using h
  rw [tick, if_pos hle]

end Timer

namespace Vars

def timer (v : Vars) (id : Nat) : Timer :=
  ⟨v.counters id, v.periodLimit id, v.test .periodic id, v.test .enabled id, v.test .int id⟩

theorem test_storeByte (v : Vars) (f g : Flags) (b : UInt8) (i j : Nat) (set : Bool) :
    (v.storeByte f b j set).test g i =
      if g = f then
        if i = j then set else if i >>> 3 = j >>> 3 then Packed.bit b i else v.test g i
      else v.test g i := by
  have hflags : (v.storeByte f b j set).flags =
      Function.update v.flags f (Packed.store (v.flags f) b j set) := rfl
  rw [test, hflags]
  by_cases hg : g = f
  · subst hg
    rw [if_pos rfl, Function.update_self, Packed.test_store]
    rfl
  · rw [if_neg hg, Function.update_of_ne hg]
    rfl

theorem test_setBit (v : Vars) (f g : Flags) (i j : Nat) (set : Bool) :
    (v.setBit f j set).test g i = if g = f ∧ i = j then set else v.test g i := by
  rw [setBit, test_storeByte]
  by_cases hg : g = f
  · subst hg
    by_cases hi : i = j
    · simp [hi]
    · by_cases hbyte : i >>> 3 = j >>> 3
      · simp [hi, hbyte, test, Packed.test]
      · simp [hi, hbyte]
  · simp [hg]

@[simp] theorem counters_setBit (v : Vars) (f : Flags) (id : Nat) (set : Bool) :
    (v.setBit f id set).counters = v.counters := rfl

@[simp] theorem periodLimit_setBit (v : Vars) (f : Flags) (id : Nat) (set : Bool) :
    (v.setBit f id set).periodLimit = v.periodLimit := rfl

@[simp] theorem resetIdx_setBit (v : Vars) (f : Flags) (id : Nat) (set : Bool) :
    (v.setBit f id set).resetIdx = v.resetIdx := rfl

@[simp] theorem resetIdx_setCounter (v : Vars) (id : Nat) (n : UInt32) :
    (v.setCounter id n).resetIdx = v.resetIdx := rfl

theorem bit_timer (v : Vars) (f : Flags) (i : Nat) : (v.timer i).bit f = v.test f i := by
  cases f <;> rfl

/-- What a byte that is written back does to a timer. -/
theorem timer_storeByte (v : Vars) (f : Flags) (b : UInt8) (i j : Nat) (set : Bool) :
    (v.storeByte f b j set).timer i = (v.timer i).setBit f
      (if i = j then set else if i >>> 3 = j >>> 3 then Packed.bit b i else (v.timer i).bit f) := by
  rw [bit_timer]
  cases f <;> (ext <;> simp [timer, test_storeByte, Timer.setBit] <;> rfl)

theorem timer_setCounter_self (v : Vars) (i : Nat) (n : UInt32) :
    (v.setCounter i n).timer i = { v.timer i with counter := n } := by
  ext <;> simp [timer, setCounter, test]

theorem timer_setCounter_of_ne (v : Vars) {i j : Nat} (n : UInt32) (h : i ≠ j) :
    (v.setCounter j n).timer i = v.timer i := by
  ext <;> simp [timer, setCounter, test, h]

theorem timer_setBit_of_ne (v : Vars) {i j : Nat} (f : Flags) (set : Bool) (h : i ≠ j) :
    (v.setBit f j set).timer i = v.timer i := by
  ext <;> simp [timer, test_setBit, h]

theorem timer_setBit_int (v : Vars) (i : Nat) (set : Bool) :
    (v.setBit .int i set).timer i = { v.timer i with flag := set } := by
  ext <;> simp [timer, test_setBit]

theorem timer_setBit_enabled (v : Vars) (i : Nat) (set : Bool) :
    (v.setBit .enabled i set).timer i = { v.timer i with enabled := set } := by
  ext <;> simp [timer, test_setBit]

/-- The loop body for a timer, in terms of that timer. -/
theorem countTimer_self (v : Vars) (i : Nat) :
    ((v.countTimer i).1.timer i, (v.countTimer i).2) = (v.timer i).tick := by
  let v₁ := v.setCounter i (v.counters i + 1)
  have h₁ : v₁.timer i = { v.timer i with counter := (v.timer i).counter + 1 } :=
    timer_setCounter_self v i _
  have hcounter : v₁.counters i = (v.timer i).counter + 1 := congrArg Timer.counter h₁
  have henabled : (v₁.setBit .int i true).test .enabled i = (v.timer i).enabled :=
    test_setBit v₁ .int .enabled i i true
  have hperiodic : (v₁.setBit .int i true).test .periodic i = (v.timer i).periodic :=
    test_setBit v₁ .int .periodic i i true
  have hbody : v.countTimer i =
      if (v.timer i).counter + 1 ≥ (v.timer i).limit then
        if (v.timer i).periodic then ((v₁.setBit .int i true).setCounter i 0, (v.timer i).enabled)
        else ((v₁.setBit .int i true).setBit .enabled i false, (v.timer i).enabled)
      else (v₁, false) := by
    rw [← hcounter, ← henabled, ← hperiodic]
    rfl
  rw [hbody, Timer.tick]
  split
  · split
    · rw [timer_setCounter_self, timer_setBit_int, h₁]
    · rw [timer_setBit_enabled, timer_setBit_int, h₁]
  · rw [h₁]

theorem countTimer_of_ne (v : Vars) {i j : Nat} (h : i ≠ j) :
    (v.countTimer j).1.timer i = v.timer i := by
  simp only [countTimer]
  split
  · split
    · rw [timer_setCounter_of_ne _ _ h, timer_setBit_of_ne _ _ _ h, timer_setCounter_of_ne _ _ h]
    · rw [timer_setBit_of_ne _ _ _ h, timer_setBit_of_ne _ _ _ h, timer_setCounter_of_ne _ _ h]
  · exact timer_setCounter_of_ne _ _ h

@[simp] theorem resetIdx_countTimer (v : Vars) (i : Nat) :
    (v.countTimer i).1.resetIdx = v.resetIdx := by
  simp only [countTimer]
  split
  · split <;> rfl
  · rfl

/-- The loop up to a timer leaves the timer. -/
theorem countTimers_of_le (v : Vars) {i n : Nat} (h : n ≤ i) :
    (v.countTimers n).1.timer i = v.timer i := by
  induction n with
  | zero => rfl
  | succ n ih =>
      have hne : i ≠ n := by omega
      exact (countTimer_of_ne _ hne).trans (ih (by omega))

/-- The loop past a timer makes its tick. -/
theorem countTimers_of_lt (v : Vars) {i n : Nat} (h : i < n) :
    (v.countTimers n).1.timer i = (v.timer i).tick.1 := by
  induction n with
  | zero => omega
  | succ n ih =>
      by_cases hi : i = n
      · subst hi
        have hself := congrArg Prod.fst (countTimer_self (v.countTimers i).1 i)
        exact hself.trans (by rw [countTimers_of_le v (Nat.le_refl i)])
      · exact (countTimer_of_ne _ hi).trans (ih (by omega))

/-- The interrupts that the loop raises. -/
theorem mem_countTimers (v : Vars) (i n : Nat) :
    i + VTMR_FIRST_ID ∈ (v.countTimers n).2 ↔ i < n ∧ (v.timer i).tick.2 = true := by
  induction n with
  | zero => simp [countTimers]
  | succ n ih =>
      have hself := congrArg Prod.snd (countTimer_self (v.countTimers n).1 n)
      rw [countTimers_of_le v (Nat.le_refl n)] at hself
      have hadds : (v.countTimers (n + 1)).2 =
          if (v.timer n).tick.2 then (v.countTimers n).2 ++ [n + VTMR_FIRST_ID]
          else (v.countTimers n).2 := by
        rw [← hself]
        rfl
      have hmem : i + VTMR_FIRST_ID ∈ (v.countTimers (n + 1)).2 ↔
          i + VTMR_FIRST_ID ∈ (v.countTimers n).2 ∨ (i = n ∧ (v.timer n).tick.2 = true) := by
        rw [hadds]
        cases (v.timer n).tick.2 with
        | false => simp
        | true => simp
      rw [hmem, ih]
      constructor
      · intro h
        rcases h with ⟨hlt, htick⟩ | ⟨rfl, htick⟩
        · exact ⟨by omega, htick⟩
        · exact ⟨by omega, htick⟩
      · intro h
        obtain ⟨hlt, htick⟩ := h
        by_cases hi : i = n
        · subst hi
          exact .inr ⟨rfl, htick⟩
        · exact .inl ⟨by omega, htick⟩

@[simp] theorem resetIdx_countTimers (v : Vars) (n : Nat) :
    (v.countTimers n).1.resetIdx = v.resetIdx := by
  induction n with
  | zero => rfl
  | succ n ih => exact (resetIdx_countTimer _ n).trans ih

variable {cfg : Platform}

@[simp] theorem resetIdx_cmnVirtualTimerCb (v : Vars) :
    (v.cmnVirtualTimerCb cfg).1.resetIdx = none := by
  simp only [cmnVirtualTimerCb]
  split
  · rfl
  · assumption

/-- **A tick for each timer.**  The callback makes every timer's tick, and then
resets the counter of the timer whose reset is pending. -/
theorem timer_cmnVirtualTimerCb (v : Vars) {i : Nat} (h : i < cfg.VTMR_NUM_TIMERS) :
    (v.cmnVirtualTimerCb cfg).1.timer i =
      if v.resetIdx = some i then { (v.timer i).tick.1 with counter := 0 }
      else (v.timer i).tick.1 := by
  have hloop := countTimers_of_lt v h
  have hreset := resetIdx_countTimers v cfg.VTMR_NUM_TIMERS
  simp only [cmnVirtualTimerCb]
  split
  · rename_i idx hidx
    have hpending : v.resetIdx = some idx := hreset.symm.trans hidx
    have htimer : ({ (v.countTimers cfg.VTMR_NUM_TIMERS).1.setCounter idx 0 with
          resetIdx := none } : Vars).timer i =
        ((v.countTimers cfg.VTMR_NUM_TIMERS).1.setCounter idx 0).timer i := rfl
    rw [htimer]
    by_cases hi : i = idx
    · subst hi
      rw [timer_setCounter_self, hloop, if_pos hpending]
    · have hne : v.resetIdx ≠ some i := by
        rw [hpending]
        exact fun heq => hi (Option.some.inj heq).symm
      rw [timer_setCounter_of_ne _ _ hi, hloop, if_neg hne]
  · rename_i hidx
    have hne : v.resetIdx ≠ some i := by
      rw [← hreset, hidx]
      intro h
      cases h
    rw [hloop, if_neg hne]

/-- The callback calls `elua_int_add` for a timer exactly if the timer's tick
raises its interrupt. -/
theorem mem_cmnVirtualTimerCb (v : Vars) (i : Nat) :
    i + VTMR_FIRST_ID ∈ (v.cmnVirtualTimerCb cfg).2 ↔
      i < cfg.VTMR_NUM_TIMERS ∧ (v.timer i).tick.2 = true := by
  have hadds : (v.cmnVirtualTimerCb cfg).2 = (v.countTimers cfg.VTMR_NUM_TIMERS).2 := by
    simp only [cmnVirtualTimerCb]
    split <;> rfl
  rw [hadds, mem_countTimers]

end Vars

/-- What an access does to a timer, after the main program has loaded a byte or
not. -/
def Access.onTimer (a : Access) (loaded : Option UInt8) (i : Nat) (t : Timer) : Timer :=
  match a, loaded with
  | .setLimit id final, _ => if i = id then { t with limit := final } else t
  | .setBit f id set, some b =>
      t.setBit f (if i = id then set else if i >>> 3 = id >>> 3 then Packed.bit b i else t.bit f)
  | _, _ => t

namespace System

variable {cfg : Platform} {s s' : System}

theorem timer_access (s : System) (a : Access) (rest : List Access) (i : Nat) :
    (s.access a rest).vars.timer i = a.onTimer s.loaded i (s.vars.timer i) := by
  cases a with
  | setLimit id final =>
      by_cases hi : i = id
      · subst hi
        ext <;> simp [access, Access.onTimer, Vars.timer, Vars.test]
      · simp only [Access.onTimer, if_neg hi]
        ext <;> simp [access, Vars.timer, Vars.test, hi]
  | setBit f id set =>
      cases h : s.loaded with
      | none => simp only [access, h, Access.onTimer]
      | some b => simp only [access, h, Access.onTimer, Vars.timer_storeByte]
  | awaitReset =>
      simp only [access]
      split <;> rfl
  | awaitCounter id final =>
      simp only [access]
      split <;> rfl
  | testBit f id => rfl
  | readCounter id => rfl
  | setReset id => rfl
  | result r => rfl

/-- An access is over, or the main program stays where it is. -/
theorem access_todo (s : System) (a : Access) (rest : List Access) :
    (s.access a rest).todo = rest ∨ (s.access a rest).todo = s.todo := by
  cases a with
  | setBit f id set =>
      simp only [access]
      split
      · exact .inr rfl
      · exact .inl rfl
  | awaitReset =>
      simp only [access]
      split
      · exact .inl rfl
      · exact .inr rfl
  | awaitCounter id final =>
      simp only [access]
      split
      · exact .inr rfl
      · exact .inl rfl
  | setLimit id final => exact .inl rfl
  | testBit f id => exact .inl rfl
  | readCounter id => exact .inl rfl
  | setReset id => exact .inl rfl
  | result r => exact .inl rfl

theorem resetIdx_access (s : System) (a : Access) (rest : List Access) :
    (s.access a rest).vars.resetIdx = s.vars.resetIdx ∨
      ∃ id, a = .setReset id ∧ (s.access a rest).vars.resetIdx = some id := by
  cases a with
  | setReset id => exact .inr ⟨id, rfl, rfl⟩
  | setBit f id set =>
      simp only [access]
      split <;> exact .inl rfl
  | awaitReset =>
      simp only [access]
      split <;> exact .inl rfl
  | awaitCounter id final =>
      simp only [access]
      split <;> exact .inl rfl
  | setLimit id final => exact .inl rfl
  | testBit f id => exact .inl rfl
  | readCounter id => exact .inl rfl
  | result r => exact .inl rfl

end System

/-- A reset is asked for only where it is then waited for. -/
def Awaits : List Access → Prop
  | [] => True
  | .setReset _ :: rest => rest.head? = some .awaitReset ∧ Awaits rest
  | _ :: rest => Awaits rest

theorem Awaits.tail {a : Access} {rest : List Access} (h : Awaits (a :: rest)) : Awaits rest := by
  cases a with
  | setReset id => exact h.2
  | _ => exact h

theorem Call.awaits (cfg : Platform) (c : Call) : Awaits (c.accesses cfg) := by
  cases c with
  | setMatchInt id us type =>
      simp only [accesses, vtmrSetMatchInt]
      split
      · trivial
      · split
        · trivial
        · exact ⟨rfl, trivial⟩
  | getFlag id clear => cases clear <;> trivial
  | start id => exact ⟨rfl, trivial⟩
  | delay id us => exact ⟨rfl, trivial⟩
  | read id => trivial
  | setStatus id enable => trivial
  | getStatus id => trivial

namespace System

variable {cfg : Platform} {s s' : System}

/-- The main program between two accesses: it has a byte loaded only when it
stores it next, and it waits for a pending reset. -/
structure InCall (s : System) : Prop where
  awaits : Awaits s.todo
  loaded : s.loaded ≠ none → ∃ f id set, s.todo.head? = some (.setBit f id set)
  reset : s.vars.resetIdx ≠ none → s.todo.head? = some .awaitReset

theorem InCall.init : InCall init := ⟨trivial, nofun, nofun⟩

/-- A byte is loaded only before it is stored. -/
theorem InCall.loaded_eq_none {a : Access} {rest : List Access} (h : InCall s)
    (htodo : s.todo = a :: rest) (ha : ∀ f id set, a ≠ .setBit f id set) : s.loaded = none := by
  by_contra hsome
  obtain ⟨f, id, set, hhead⟩ := h.loaded hsome
  rw [htodo] at hhead
  exact ha f id set (Option.some.inj hhead)

/-- The access after which a byte is loaded. -/
theorem InCall.loaded_access {a : Access} {rest : List Access} {b : UInt8} (h : InCall s)
    (htodo : s.todo = a :: rest) (hb : (s.access a rest).loaded = some b) :
    ∃ f id set, a = .setBit f id set ∧ b = s.vars.flags f (id >>> 3) ∧
      s.access a rest = { s with loaded := some b } := by
  have hnone := h.loaded_eq_none htodo
  cases a with
  | setBit f id set =>
      refine ⟨f, id, set, rfl, ?_⟩
      cases hl : s.loaded with
      | none =>
          simp only [System.access, hl, Option.some.injEq] at hb ⊢
          subst hb
          exact ⟨rfl, rfl⟩
      | some b' =>
          simp only [System.access, hl] at hb
          cases hb
  | awaitReset =>
      simp only [System.access] at hb
      split at hb
      · rw [hnone nofun] at hb
        cases hb
      · rw [hnone nofun] at hb
        cases hb
  | awaitCounter id final =>
      simp only [System.access] at hb
      split at hb
      · rw [hnone nofun] at hb
        cases hb
      · rw [hnone nofun] at hb
        cases hb
  | setLimit id final => cases (hnone nofun).symm.trans hb
  | testBit f id => cases (hnone nofun).symm.trans hb
  | readCounter id => cases (hnone nofun).symm.trans hb
  | setReset id => cases (hnone nofun).symm.trans hb
  | result r => cases (hnone nofun).symm.trans hb

/-- A byte that has just been loaded agrees with every timer's bit. -/
theorem InCall.bit_loaded {a : Access} {rest : List Access} {b : UInt8} {f : Flags}
    {i id : Nat} {set : Bool} (h : InCall s) (htodo : s.todo = a :: rest)
    (hb : (s.access a rest).loaded = some b)
    (hhead : (s.access a rest).todo.head? = some (.setBit f id set))
    (hbyte : i >>> 3 = id >>> 3) :
    Packed.bit b i = ((s.access a rest).vars.timer i).bit f := by
  obtain ⟨f', id', set', rfl, rfl, hafter⟩ := h.loaded_access htodo hb
  rw [hafter] at hhead ⊢
  rw [htodo, List.head?_cons, Option.some.injEq, Access.setBit.injEq] at hhead
  obtain ⟨rfl, rfl, -⟩ := hhead
  rw [Vars.bit_timer, Vars.test, Packed.test, hbyte]

theorem InCall.access {a : Access} {rest : List Access} (h : InCall s) (htodo : s.todo = a :: rest) :
    InCall (s.access a rest) := by
  have hawaits : Awaits rest := by
    have hall := h.awaits
    rw [htodo] at hall
    exact hall.tail
  have hloaded := h.loaded_eq_none htodo
  have hreset : a ≠ .awaitReset → s.vars.resetIdx = none := by
    intro hne
    by_contra hsome
    have hhead := h.reset hsome
    rw [htodo] at hhead
    exact hne (Option.some.inj hhead)
  cases a with
  | setBit f id set =>
      cases hl : s.loaded with
      | none =>
          simp only [System.access, hl]
          refine ⟨h.awaits, ?_, fun hne => absurd (hreset nofun) hne⟩
          intro _
          exact ⟨f, id, set, by simp [htodo]⟩
      | some b =>
          simp only [System.access, hl]
          exact ⟨hawaits, nofun, fun hne => absurd (hreset nofun) hne⟩
  | setReset id =>
      refine ⟨hawaits, fun hne => absurd (hloaded nofun) hne, fun _ => ?_⟩
      have hall := h.awaits
      rw [htodo] at hall
      exact hall.1
  | awaitReset =>
      simp only [System.access]
      split
      · rename_i hnone
        exact ⟨hawaits, fun hne => absurd (hloaded nofun) hne, fun hne => absurd hnone hne⟩
      · exact h
  | awaitCounter id final =>
      simp only [System.access]
      split
      · exact h
      · exact ⟨hawaits, fun hne => absurd (hloaded nofun) hne, fun hne => absurd (hreset nofun) hne⟩
  | setLimit id final =>
      exact ⟨hawaits, fun hne => absurd (hloaded nofun) hne, fun hne => absurd (hreset nofun) hne⟩
  | testBit f id =>
      exact ⟨hawaits, fun hne => absurd (hloaded nofun) hne, fun hne => absurd (hreset nofun) hne⟩
  | readCounter id =>
      exact ⟨hawaits, fun hne => absurd (hloaded nofun) hne, fun hne => absurd (hreset nofun) hne⟩
  | result r =>
      exact ⟨hawaits, fun hne => absurd (hloaded nofun) hne, fun hne => absurd (hreset nofun) hne⟩

/-- The three kinds of steps. -/
theorem step_cases {a : Action} (h : step cfg s a = some s') :
    (a = .tick ∧ s' = { s with vars := (s.vars.cmnVirtualTimerCb cfg).1 }) ∨
    (∃ c, a = .call c ∧ s.todo = [] ∧ c.id < cfg.VTMR_NUM_TIMERS ∧
      s' = { s with todo := c.accesses cfg }) ∨
    (∃ x rest, a = .main ∧ s.todo = x :: rest ∧ s' = s.access x rest) := by
  cases a with
  | tick => exact .inl ⟨rfl, (Option.some.inj h).symm⟩
  | call c =>
      simp only [step, Option.ite_none_right_eq_some, Option.some.injEq] at h
      obtain ⟨⟨hidle, hid⟩, rfl⟩ := h
      exact .inr (.inl ⟨c, rfl, hidle, hid, rfl⟩)
  | main =>
      simp only [step] at h
      split at h
      · cases h
      · rename_i x rest htodo
        exact .inr (.inr ⟨x, rest, rfl, htodo, (Option.some.inj h).symm⟩)

theorem InCall.step {a : Action} (h : InCall s) (hstep : step cfg s a = some s') : InCall s' := by
  obtain ⟨rfl, rfl⟩ | ⟨c, rfl, hidle, -, rfl⟩ | ⟨x, rest, rfl, htodo, rfl⟩ := step_cases hstep
  · exact ⟨h.awaits, h.loaded, fun hne => absurd (Vars.resetIdx_cmnVirtualTimerCb _) hne⟩
  · refine ⟨c.awaits cfg, ?_, ?_⟩
    · intro hne
      obtain ⟨f, id, set, hhead⟩ := h.loaded hne
      rw [hidle] at hhead
      cases hhead
    · intro hne
      have hhead := h.reset hne
      rw [hidle] at hhead
      cases hhead
  · exact h.access htodo

theorem InCall.of_run {actions : List Action}
    (hrun : Transition.run (System.step cfg) System.init actions = some s) : InCall s :=
  Transition.invariant_of_steps (fun _ _ _ h hstep => h.step hstep) .init hrun

end System
end Vtmr
