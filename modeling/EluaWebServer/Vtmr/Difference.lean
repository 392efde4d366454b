import EluaWebServer.Vtmr.Timers

/-!
# Differences of timer values

`platform_timer_get_diff_us` computes microseconds with 64 bits and returns 32 of them.  At the
frequency of the virtual timers, the differences that are returned begin again from zero after
about 72 minutes.
-/

namespace Vtmr

/-- `TIMER_IS_VIRTUAL`. -/
def timerIsVirtual (cfg : Platform) (id : Nat) : Bool :=
  0 < cfg.VTMR_NUM_TIMERS ∧ VTMR_FIRST_ID ≤ id ∧ id < cfg.VTMR_NUM_TIMERS + VTMR_FIRST_ID

/-- `PLATFORM_TIMER_OP_START` and so on. -/
inductive Op where
  | start
  | read
  | getMaxDelay
  | getMinDelay
  | setClock
  | getClock
  deriving DecidableEq

/-- `platform_timer_get_diff_us`, with the answer to `PLATFORM_TIMER_OP_GET_CLOCK`. -/
def diffUs (freq endValue startValue : UInt32) : UInt32 :=
  let (endValue, startValue) :=
    if startValue < endValue then (startValue, endValue) else (endValue, startValue)
  ((startValue - endValue).toUInt64 * 1000000 / freq.toUInt64).toUInt32

/-- What the timers are: the virtual ones and their counters, and `platform_s_timer_op`. -/
structure Timers where
  cfg : Platform
  counters : Nat → UInt32
  sTimerOp : Nat → Op → UInt32 → UInt32

/-- What `platform_timer_op` returns.  The differences that it asks for are those of a virtual
timer. -/
def platformTimerOp (t : Timers) (id : Nat) (op : Op) (data : UInt32) : UInt32 :=
  if timerIsVirtual t.cfg id then
    match op with
    | .start => 0
    | .read => t.counters (id - VTMR_FIRST_ID)
    | .getMaxDelay => diffUs (UInt32.ofNat t.cfg.VTMR_FREQ_HZ) 0 0xFFFFFFFF
    | .getMinDelay => diffUs (UInt32.ofNat t.cfg.VTMR_FREQ_HZ) 0 1
    | .setClock | .getClock => UInt32.ofNat t.cfg.VTMR_FREQ_HZ
  else t.sTimerOp id op data

/-- `platform_timer_get_diff_us`. -/
def platformTimerGetDiffUs (t : Timers) (id : Nat) (endValue startValue : UInt32) : UInt32 :=
  diffUs (platformTimerOp t id .getClock 0) endValue startValue

/-- The ticks between two counter values. -/
def ticks (endValue startValue : UInt32) : Nat :=
  ((startValue.toNat : Int) - endValue.toNat).natAbs

/-- How many microseconds some ticks are, rounded down. -/
def micros (f n : Nat) : Nat := n * 10 ^ 6 / f

/-- The differences of a timer are the microseconds, a longer one is not less, and for a virtual
timer none is more than the maximum delay. -/
structure TimesRight (t : Timers) (id : Nat) : Prop where
  exact : ∀ e s, (platformTimerGetDiffUs t id e s).toNat =
    micros (platformTimerOp t id .getClock 0).toNat (ticks e s)
  mono : ∀ e s e' s', ticks e s ≤ ticks e' s' →
    platformTimerGetDiffUs t id e s ≤ platformTimerGetDiffUs t id e' s'
  max : timerIsVirtual t.cfg id = true → ∀ e s,
    platformTimerGetDiffUs t id e s ≤ platformTimerOp t id .getMaxDelay 0

/-! ## One difference -/

variable {freq e s : UInt32}

theorem ticks_lt (e s : UInt32) : ticks e s < 2 ^ 32 := by
  have he := e.toNat_lt
  have hs := s.toNat_lt
  unfold ticks
  omega

/-- **The difference** is what is left of the microseconds in 32 bits. -/
theorem diffUs_eq (freq e s : UInt32) :
    (diffUs freq e s).toNat = micros freq.toNat (ticks e s) % 2 ^ 32 := by
  have hticks : (if s < e then e - s else s - e).toNat = ticks e s := by
    have he := e.toNat_lt
    have hs := s.toNat_lt
    unfold ticks
    by_cases hlt : s < e
    · have hle : s.toNat < e.toNat := UInt32.lt_iff_toNat_lt.mp hlt
      rw [if_pos hlt, UInt32.toNat_sub_of_le _ _ (UInt32.le_iff_toNat_le.mpr (by omega))]
      omega
    · have hle : e.toNat ≤ s.toNat := by
        rw [UInt32.lt_iff_toNat_lt] at hlt
        omega
      rw [if_neg hlt, UInt32.toNat_sub_of_le _ _ (UInt32.le_iff_toNat_le.mpr hle)]
      omega
  have hswap : diffUs freq e s =
      ((if s < e then e - s else s - e).toUInt64 * 1000000 / freq.toUInt64).toUInt32 := by
    unfold diffUs
    by_cases hlt : s < e
    · rw [if_pos hlt, if_pos hlt]
    · rw [if_neg hlt, if_neg hlt]
  have hsmall := ticks_lt e s
  have hproduct : ticks e s * 1000000 % 2 ^ 64 = ticks e s * 1000000 :=
    Nat.mod_eq_of_lt (by omega)
  rw [hswap, UInt64.toNat_toUInt32, UInt64.toNat_div, UInt64.toNat_mul, UInt32.toNat_toUInt64,
    UInt32.toNat_toUInt64, hticks]
  exact congrArg (fun n => n / freq.toNat % 2 ^ 32) hproduct

theorem micros_lt_iff {f n b : Nat} (hf : 1 ≤ f) : micros f n < b ↔ n * 10 ^ 6 < b * f :=
  Nat.div_lt_iff_lt_mul hf

theorem le_micros_iff {f n b : Nat} (hf : 1 ≤ f) : b ≤ micros f n ↔ b * f ≤ n * 10 ^ 6 :=
  Nat.le_div_iff_mul_le hf

/-- One difference is right exactly when it fits. -/
theorem diffUs_eq_micros_iff (hfreq : 1 ≤ freq.toNat) :
    (diffUs freq e s).toNat = micros freq.toNat (ticks e s) ↔
      ticks e s * 10 ^ 6 < 2 ^ 32 * freq.toNat := by
  rw [diffUs_eq, Nat.mod_eq_iff_lt (by decide), micros_lt_iff hfreq]

/-! ## All differences -/

theorem micros_mono {f n n' : Nat} (h : n ≤ n') : micros f n ≤ micros f n' :=
  Nat.div_le_div_right (Nat.mul_le_mul_right _ h)

theorem micros_lt {f n : Nat} (hf : 10 ^ 6 ≤ f) (hn : n < 2 ^ 32) : micros f n < 2 ^ 32 := by
  rw [micros_lt_iff (by omega)]
  omega

theorem diffUs_of_le (hfreq : 10 ^ 6 ≤ freq.toNat) (e s : UInt32) :
    (diffUs freq e s).toNat = micros freq.toNat (ticks e s) := by
  rw [diffUs_eq]
  exact Nat.mod_eq_of_lt (micros_lt hfreq (ticks_lt e s))

theorem ticks_zero {n : Nat} (hn : n < 2 ^ 32) : ticks 0 (UInt32.ofNat n) = n := by
  have htoNat : (UInt32.ofNat n).toNat = n := UInt32.toNat_ofNat_of_lt' hn
  have hzero : (0 : UInt32).toNat = 0 := rfl
  rw [ticks, htoNat, hzero]
  omega

/-- Where the differences begin again: the last one that fits, and the next. -/
theorem exists_decreasing {f : Nat} (hpos : 1 ≤ f) (hf : f < 10 ^ 6) :
    ∃ n, n + 1 < 2 ^ 32 ∧ micros f (n + 1) % 2 ^ 32 < micros f n % 2 ^ 32 := by
  obtain ⟨n, hn⟩ : ∃ n, n = (2 ^ 32 * f - 1) / 10 ^ 6 := ⟨_, rfl⟩
  have hbelow : n * 10 ^ 6 < 2 ^ 32 * f := by omega
  have habove : 2 ^ 32 * f ≤ (n + 1) * 10 ^ 6 := by omega
  have hlast : micros f n < 2 ^ 32 := (micros_lt_iff hpos).mpr hbelow
  have hlarge : 2 ^ 32 - 10 ^ 6 ≤ micros f n := (le_micros_iff hpos).mpr (by omega)
  have hnext : 2 ^ 32 ≤ micros f (n + 1) := (le_micros_iff hpos).mpr habove
  have hsmall : micros f (n + 1) < 2 ^ 32 + 10 ^ 6 := by
    rw [micros_lt_iff hpos]
    calc (n + 1) * 10 ^ 6 = n * 10 ^ 6 + 10 ^ 6 := Nat.succ_mul n _
      _ < 2 ^ 32 * f + 10 ^ 6 * f :=
          Nat.add_lt_add_of_lt_of_le hbelow (Nat.le_mul_of_pos_right _ hpos)
      _ = (2 ^ 32 + 10 ^ 6) * f := (Nat.add_mul _ _ f).symm
  refine ⟨n, by omega, ?_⟩
  omega

/-- **Longer differences** are not less exactly when no tick is shorter than a microsecond. -/
theorem diffUs_mono_iff (hfreq : 1 ≤ freq.toNat) :
    (∀ e s e' s', ticks e s ≤ ticks e' s' → diffUs freq e s ≤ diffUs freq e' s') ↔
      10 ^ 6 ≤ freq.toNat := by
  constructor
  · intro hmono
    by_contra hlow
    obtain ⟨n, hn, hdecreasing⟩ := exists_decreasing hfreq (Nat.lt_of_not_le hlow)
    have hfirst := ticks_zero (Nat.lt_of_succ_lt hn)
    have hsecond := ticks_zero hn
    have hle := UInt32.le_iff_toNat_le.mp
      (hmono 0 (UInt32.ofNat n) 0 (UInt32.ofNat (n + 1)) (by omega))
    rw [diffUs_eq, diffUs_eq, hfirst, hsecond] at hle
    omega
  · intro hle e s e' s' hticks
    rw [UInt32.le_iff_toNat_le, diffUs_of_le hle, diffUs_of_le hle]
    exact micros_mono hticks

theorem ticks_le_max (e s : UInt32) : ticks e s ≤ ticks 0 0xFFFFFFFF := by
  have hmax : ticks 0 0xFFFFFFFF = 2 ^ 32 - 1 := rfl
  have hlt := ticks_lt e s
  omega

/-- **Timer differences.**  Each is right exactly when it fits into 32 bits; they do not decrease,
and everything that is asked of them holds, exactly when no tick is shorter than a microsecond. -/
theorem timesRight_iff (t : Timers) (id : Nat)
    (hfreq : 1 ≤ (platformTimerOp t id .getClock 0).toNat) :
    (∀ e s, (platformTimerGetDiffUs t id e s).toNat =
          micros (platformTimerOp t id .getClock 0).toNat (ticks e s) ↔
        ticks e s * 10 ^ 6 < 2 ^ 32 * (platformTimerOp t id .getClock 0).toNat) ∧
      ((∀ e s e' s', ticks e s ≤ ticks e' s' →
          platformTimerGetDiffUs t id e s ≤ platformTimerGetDiffUs t id e' s') ↔
        10 ^ 6 ≤ (platformTimerOp t id .getClock 0).toNat) ∧
      (TimesRight t id ↔ 10 ^ 6 ≤ (platformTimerOp t id .getClock 0).toNat) := by
  refine ⟨fun e s => diffUs_eq_micros_iff hfreq, diffUs_mono_iff hfreq, ?_⟩
  constructor
  · intro hright
    exact (diffUs_mono_iff hfreq).mp hright.mono
  · intro hle
    have hmono := (diffUs_mono_iff hfreq).mpr hle
    refine ⟨diffUs_of_le hle, hmono, ?_⟩
    intro hvirtual e s
    have hmax : platformTimerOp t id .getMaxDelay 0 =
        platformTimerGetDiffUs t id 0 0xFFFFFFFF := by
      simp only [platformTimerGetDiffUs, platformTimerOp, if_pos hvirtual]
    rw [hmax]
    exact hmono e s 0 0xFFFFFFFF (ticks_le_max e s)

/-- The virtual timers of a board, at 4 ticks a second. -/
def slowTimers : Timers := ⟨⟨4, 4, by decide⟩, fun _ => 0, fun _ _ _ => 0⟩

/-- A hardware timer at one tick a microsecond. -/
theorem timesRight_microseconds :
    TimesRight ⟨⟨4, 4, by decide⟩, fun _ => 0, fun _ _ _ => 1000000⟩ 0 :=
  (timesRight_iff _ 0 (by decide)).2.2.mpr (by decide)

/-- 72 minutes at 4 ticks a second: a tick more, and the difference is nearly zero.  The maximum
delay is less than the difference before. -/
theorem not_timesRight_slow :
    platformTimerGetDiffUs slowTimers VTMR_FIRST_ID 0 17179 = 4294750000 ∧
      platformTimerGetDiffUs slowTimers VTMR_FIRST_ID 0 17180 = 32704 ∧
      platformTimerOp slowTimers VTMR_FIRST_ID .getMaxDelay 0 = 4294717296 ∧
      ¬ TimesRight slowTimers VTMR_FIRST_ID := by
  refine ⟨by decide, by decide, by decide, ?_⟩
  intro hright
  exact absurd (hright.max (by decide) 0 17179) (by decide)

end Vtmr
