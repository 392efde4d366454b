import EluaWebServer.Adc.Device
import EluaWebServer.Lib.Transition
import EluaWebServer.Lib.Window

/-!
# The moving average

The functions on the smoothing buffer again, with every access to `smoothbuf` checked
against its `SMOOTH_REALSIZE` elements.  From a change of the smoothing length on, and
whatever else happens to the channel between the calls, no access is out of bounds, and
a processed sample is the mean of the samples that were consumed last.
-/

namespace Adc

open Charbuf Memory

/-- `SMOOTH_REALSIZE`. -/
def Channel.smoothRealsize (s : Channel) : Nat := 2 ^ s.logsmoothlen

/-- `smoothbuf[ i ]`. -/
def Channel.loadSmooth (s : Channel) (i : Nat) : Option UInt16 :=
  if i < s.smoothRealsize then some (s.smoothbuf i) else none

/-- `smoothbuf[ i ] = v`. -/
def Channel.storeSmooth (s : Channel) (i : Nat) (v : UInt16) : Option Channel :=
  if i < s.smoothRealsize then some { s with smoothbuf := Function.update s.smoothbuf i v }
  else none

/-- The oldest sample that is available, which is taken out of its place. -/
def Channel.takeOldest (sampleBuf : Nat → UInt16) (s : Channel) : UInt16 × Channel :=
  if s.flags.valueFresh then (sampleBuf s.valuePtr, s.setFresh false)
  else
    let (desc, _, bs) := bufRead s.desc
    (ofSample bs, { s with desc := desc })

namespace Smoothing

/-- The index is wrapped when it has come to the end, and the filter has warmed up. -/
def wrapIndex (s : Channel) : Channel :=
  if s.smoothidx = s.smoothRealsize then
    { s with smoothidx := 0, flags := { s.flags with smoothReady := true } }
  else s

/-- The rest of `adc_smooth_data`. -/
def replaceOldest (sampleBuf : Nat → UInt16) (s : Channel) : Option Channel := do
  -- Subtract Oldest Value from Sum
  let oldest ← s.loadSmooth s.smoothidx
  let s := { s with smoothsum := s.smoothsum - oldest.toUInt32 }
  -- Replace Oldest Value in Buffer
  let (sample, s) := s.takeOldest sampleBuf
  let s ← s.storeSmooth s.smoothidx sample
  -- Add New Sample to Sum
  let newest ← s.loadSmooth s.smoothidx
  return { s with
    smoothsum := s.smoothsum + newest.toUInt32
    smoothidx := (s.smoothidx + 1) % 2 ^ 16 }

/-- `adc_smooth_data`. -/
def adcSmoothData (sampleBuf : Nat → UInt16) (s : Channel) : Option Channel :=
  replaceOldest sampleBuf (wrapIndex s)

/-- `adc_get_processed_sample`. -/
def adcGetProcessedSample (sampleBuf : Nat → UInt16) (s : Channel) : Option (Channel × UInt16) :=
  if 0 < adcSamplesAvailable s then
    if 0 < s.logsmoothlen ∧ s.flags.smoothReady = true then do
      let s ← adcSmoothData sampleBuf s
      let s := if 0 < s.reqsamples then { s with reqsamples := s.reqsamples - 1 } else s
      return (s, (s.smoothsum >>> s.logsmoothlen.toUInt32).toUInt16)
    else if s.logsmoothlen = 0 then
      let (sample, s) := s.takeOldest sampleBuf
      some (if 0 < s.reqsamples then { s with reqsamples := s.reqsamples - 1 } else s, sample)
    else some (s, 0)
  else some (s, 0)

/-- An action, a number of times. -/
def times {σ : Type} (action : σ → Option σ) : Nat → σ → Option σ
  | 0, s => some s
  | n + 1, s => (action s).bind (times action n)

/-- `DUFF_DEVICE_8`: the first round is entered at `count & 7`, and the others have eight
actions. -/
def duffDevice8 {σ : Type} (count : Nat) (action : σ → Option σ) (s : σ) : Option σ :=
  let first := if count % 8 = 0 then 8 else count % 8
  (times action first s).bind (times (times action 8) ((count + 7) / 8 - 1))

/-- `adc_flush_smoothing`. -/
def adcFlushSmoothing (s : Channel) : Option Channel :=
  let s := { s with smoothidx := 0, smoothsum := 0, flags := { s.flags with smoothReady := false } }
  if 0 < s.logsmoothlen then
    let zero : Channel × Nat → Option (Channel × Nat) := fun r =>
      (r.1.storeSmooth r.2 0).map fun s => (s, (r.2 + 1) % 2 ^ 16)
    (duffDevice8 s.smoothRealsize zero (s, 0)).map Prod.fst
  else some s

/-- `adc_update_smoothing` of a channel that is stopped; `allocated` says whether `realloc`
finds memory. -/
def adcUpdateSmoothing (s : Channel) (loglen : Nat) (allocated : Bool) :
    Option (Channel × Status) :=
  if loglen ≠ s.logsmoothlen ∧ allocated = false then
    let s := { s with
      logsmoothlen := 0
      smoothidx := 0
      smoothsum := 0
      flags := { s.flags with smoothReady := false } }
    if loglen ≠ 0 then some (s, .PLATFORM_ERR)
    else (adcFlushSmoothing s).map fun s => ({ s with desc := bufFlush s.desc }, .PLATFORM_OK)
  else
    (adcFlushSmoothing { s with logsmoothlen := loglen }).map fun s =>
      ({ s with desc := bufFlush s.desc }, .PLATFORM_OK)

/-- A channel, the samples that were consumed since the last flush, and the processed samples
that were returned when the buffer was filled, each with what had been consumed by then. -/
structure System where
  ch : Channel
  sampleBuf : Nat → UInt16
  consumed : List UInt16
  processed : List (List UInt16 × UInt16)

inductive Action where
  /-- Whatever happens between the calls, but to the smoothing. -/
  | other (sampleBuf : Nat → UInt16) (ch : Channel)
  | smoothData
  | getProcessedSample
  | flush

/-- A call, `none` when it goes out of `smoothbuf`. -/
def step (s : System) : Action → Option System
  | .other sampleBuf ch =>
      some { s with
        sampleBuf := sampleBuf
        ch := { ch with
          logsmoothlen := s.ch.logsmoothlen
          smoothidx := s.ch.smoothidx
          smoothsum := s.ch.smoothsum
          smoothbuf := s.ch.smoothbuf
          flags := { ch.flags with smoothReady := s.ch.flags.smoothReady } } }
  | .smoothData =>
      (adcSmoothData s.sampleBuf s.ch).map fun ch =>
        { s with ch := ch, consumed := s.consumed ++ [(s.ch.takeOldest s.sampleBuf).1] }
  | .getProcessedSample =>
      (adcGetProcessedSample s.sampleBuf s.ch).map fun r =>
        if s.ch.flags.smoothReady then
          let consumed := s.consumed ++ [(s.ch.takeOldest s.sampleBuf).1]
          { s with ch := r.1, consumed := consumed, processed := s.processed ++ [(consumed, r.2)] }
        else { s with ch := r.1 }
  | .flush => (adcFlushSmoothing s.ch).map fun ch => { s with ch := ch, consumed := [] }

/-- Samples are read while there are some. -/
def Available (s : System) : Action → Prop
  | .smoothData | .getProcessedSample => 0 < adcSamplesAvailable s.ch
  | .other _ _ | .flush => True

instance (s : System) : (a : Action) → Decidable (Available s a)
  | .smoothData | .getProcessedSample =>
      inferInstanceAs (Decidable (0 < adcSamplesAvailable s.ch))
  | .other _ _ | .flush => inferInstanceAs (Decidable True)

/-- The mean of the last `n` samples, rounded down. -/
def mean (n : Nat) (consumed : List UInt16) : Nat :=
  ((consumed.drop (consumed.length - n)).map UInt16.toNat).sum / n

open Finset in
/-- What a channel with a smoothing length promises. -/
structure Smoothed (k : Nat) (s : System) : Prop where
  sum : s.ch.smoothsum.toNat = ∑ i ∈ range (2 ^ k), (s.ch.smoothbuf i).toNat
  idx : s.ch.smoothidx ≤ 2 ^ k
  processed : ∀ r ∈ s.processed, 2 ^ k ≤ r.1.length ∧ r.2.toNat = mean (2 ^ k) r.1

/-! ## The calls -/

section

variable {s : Channel} {sampleBuf : Nat → UInt16} {k : Nat}

@[simp] theorem takeOldest_logsmoothlen :
    (s.takeOldest sampleBuf).2.logsmoothlen = s.logsmoothlen := by
  unfold Channel.takeOldest
  split <;> rfl

@[simp] theorem takeOldest_smoothidx : (s.takeOldest sampleBuf).2.smoothidx = s.smoothidx := by
  unfold Channel.takeOldest
  split <;> rfl

@[simp] theorem takeOldest_smoothbuf : (s.takeOldest sampleBuf).2.smoothbuf = s.smoothbuf := by
  unfold Channel.takeOldest
  split <;> rfl

@[simp] theorem takeOldest_smoothsum : (s.takeOldest sampleBuf).2.smoothsum = s.smoothsum := by
  unfold Channel.takeOldest
  split <;> rfl

@[simp] theorem takeOldest_smoothReady :
    (s.takeOldest sampleBuf).2.flags.smoothReady = s.flags.smoothReady := by
  unfold Channel.takeOldest
  split <;> rfl

theorem takeOldest_wrapIndex :
    ((wrapIndex s).takeOldest sampleBuf).1 = (s.takeOldest sampleBuf).1 := by
  unfold wrapIndex
  split
  · unfold Channel.takeOldest
    dsimp only
    split <;> rfl
  · rfl

theorem replaceOldest_eq (hlog : s.logsmoothlen ≤ 15) (hidx : s.smoothidx < s.smoothRealsize) :
    ∃ s', replaceOldest sampleBuf s = some s' ∧ s'.logsmoothlen = s.logsmoothlen ∧
      s'.smoothidx = s.smoothidx + 1 ∧ s'.flags.smoothReady = s.flags.smoothReady ∧
      s'.smoothbuf = Function.update s.smoothbuf s.smoothidx (s.takeOldest sampleBuf).1 ∧
      s'.smoothsum = s.smoothsum - (s.smoothbuf s.smoothidx).toUInt32 +
        (s.takeOldest sampleBuf).1.toUInt32 := by
  have hsize : s.smoothRealsize ≤ 2 ^ 15 := Nat.pow_le_pow_right (by decide) hlog
  have hnext : s.smoothidx + 1 < 65536 := by omega
  unfold Channel.smoothRealsize at hidx
  by_cases hfresh : s.flags.valueFresh = true
  · simp [replaceOldest, Channel.loadSmooth, Channel.storeSmooth, Channel.smoothRealsize,
      Channel.takeOldest, Channel.setFresh, hfresh, hidx, hnext]
  · simp [replaceOldest, Channel.loadSmooth, Channel.storeSmooth, Channel.smoothRealsize,
      Channel.takeOldest, hfresh, hidx, hnext]

/-- **A call of `adc_smooth_data`** stays in the buffer, and exchanges the sample in the slot
that the index has been wrapped to. -/
theorem adcSmoothData_eq (hlog : s.logsmoothlen ≤ 15) (hidx : s.smoothidx ≤ s.smoothRealsize) :
    ∃ s', adcSmoothData sampleBuf s = some s' ∧ s'.logsmoothlen = s.logsmoothlen ∧
      s'.smoothidx = s.smoothidx % s.smoothRealsize + 1 ∧
      s'.flags.smoothReady = (s.flags.smoothReady || s.smoothidx = s.smoothRealsize) ∧
      s'.smoothbuf = Function.update s.smoothbuf (s.smoothidx % s.smoothRealsize)
        (s.takeOldest sampleBuf).1 ∧
      s'.smoothsum = s.smoothsum - (s.smoothbuf (s.smoothidx % s.smoothRealsize)).toUInt32 +
        (s.takeOldest sampleBuf).1.toUInt32 := by
  have hpos : 0 < s.smoothRealsize := Nat.pow_pos (by decide)
  rw [← takeOldest_wrapIndex, adcSmoothData]
  by_cases hwrap : s.smoothidx = s.smoothRealsize
  · have hw : wrapIndex s =
        { s with smoothidx := 0, flags := { s.flags with smoothReady := true } } := if_pos hwrap
    have hmod : s.smoothidx % s.smoothRealsize = 0 := by rw [hwrap, Nat.mod_self]
    obtain ⟨s', hs', hlog', hidx', hready, hbuf, hsum⟩ :=
      @replaceOldest_eq (wrapIndex s) sampleBuf (by rw [hw]; exact hlog)
        (by rw [hw]; exact hpos)
    rw [hmod]
    refine ⟨s', hs', ?_, ?_, ?_, ?_, ?_⟩
    · rw [hlog', hw]
    · rw [hidx', hw]
    · rw [hready, hw, hwrap]
      simp
    · rw [hbuf, hw]
    · rw [hsum, hw]
  · have hw : wrapIndex s = s := if_neg hwrap
    rw [Nat.mod_eq_of_lt (by omega), hw]
    obtain ⟨s', hs', hlog', hidx', hready, hbuf, hsum⟩ :=
      @replaceOldest_eq s sampleBuf hlog (show s.smoothidx < s.smoothRealsize by omega)
    exact ⟨s', hs', hlog', hidx', by simp [hready, hwrap], hbuf, hsum⟩

/-- Inside the buffer the checks change nothing. -/
theorem adcSmoothData_eq_unchecked (hlog : s.logsmoothlen ≤ 15)
    (hidx : s.smoothidx ≤ s.smoothRealsize) :
    adcSmoothData sampleBuf s = some (Adc.adcSmoothData sampleBuf s) := by
  have hpos : 0 < 2 ^ s.logsmoothlen := Nat.pow_pos (by decide)
  have hsize : 2 ^ s.logsmoothlen ≤ 2 ^ 15 := Nat.pow_le_pow_right (by decide) hlog
  unfold Channel.smoothRealsize at hidx
  by_cases hwrap : s.smoothidx = 2 ^ s.logsmoothlen
  · by_cases hfresh : s.flags.valueFresh = true
    · simp [adcSmoothData, wrapIndex, replaceOldest, Channel.loadSmooth, Channel.storeSmooth,
        Channel.smoothRealsize, Channel.takeOldest, Channel.setFresh, Adc.adcSmoothData, hwrap,
        hfresh, hpos]
    · simp [adcSmoothData, wrapIndex, replaceOldest, Channel.loadSmooth, Channel.storeSmooth,
        Channel.smoothRealsize, Channel.takeOldest, Adc.adcSmoothData, hwrap, hfresh, hpos]
  · have hlt : s.smoothidx < 2 ^ s.logsmoothlen := by omega
    have hnext : (s.smoothidx + 1) % 65536 = s.smoothidx + 1 := Nat.mod_eq_of_lt (by omega)
    by_cases hfresh : s.flags.valueFresh = true
    · simp [adcSmoothData, wrapIndex, replaceOldest, Channel.loadSmooth, Channel.storeSmooth,
        Channel.smoothRealsize, Channel.takeOldest, Channel.setFresh, Adc.adcSmoothData, hwrap,
        hfresh, hlt, hnext]
    · simp [adcSmoothData, wrapIndex, replaceOldest, Channel.loadSmooth, Channel.storeSmooth,
        Channel.smoothRealsize, Channel.takeOldest, Adc.adcSmoothData, hwrap, hfresh, hlt, hnext]

/-- A processed sample is the sum, shifted by the smoothing length. -/
theorem adcGetProcessedSample_ready {ch : Channel} (havailable : 0 < adcSamplesAvailable s)
    (hlog : 0 < s.logsmoothlen) (hready : s.flags.smoothReady = true)
    (hch : adcSmoothData sampleBuf s = some ch) :
    ∃ reqsamples, adcGetProcessedSample sampleBuf s = some ({ ch with reqsamples := reqsamples },
      (ch.smoothsum >>> ch.logsmoothlen.toUInt32).toUInt16) := by
  rw [adcGetProcessedSample, if_pos havailable, if_pos ⟨hlog, hready⟩, hch]
  by_cases hreq : 0 < ch.reqsamples
  · refine ⟨ch.reqsamples - 1, ?_⟩
    simp only [Option.bind_eq_bind, Option.bind_some, if_pos hreq, Option.pure_def]
  · refine ⟨ch.reqsamples, ?_⟩
    simp only [Option.bind_eq_bind, Option.bind_some, if_neg hreq, Option.pure_def]

/-! ## Flushing -/

variable {σ : Type} {action : σ → Option σ}

theorem times_add (m n : Nat) (x : σ) :
    times action (m + n) x = (times action m x).bind (times action n) := by
  induction m generalizing x with
  | zero => rw [Nat.zero_add, times, Option.bind_some]
  | succ m ih =>
      rw [Nat.succ_add, times, times, Option.bind_assoc]
      exact Option.bind_congr fun y _ => ih y

theorem times_times (m n : Nat) (x : σ) : times (times action m) n x = times action (m * n) x := by
  induction n generalizing x with
  | zero => rfl
  | succ n ih =>
      rw [Nat.mul_succ, Nat.add_comm (m * n), times_add m (m * n)]
      exact Option.bind_congr fun y _ => ih y

/-- Duff's device does the action as many times as it is told to. -/
theorem duffDevice8_eq {count : Nat} (hcount : 0 < count) (x : σ) :
    duffDevice8 count action x = times action count x := by
  have hrounds : ∀ first, first + 8 * ((count + 7) / 8 - 1) = count →
      (times action first x).bind (times (times action 8) ((count + 7) / 8 - 1)) =
        times action count x := by
    intro first hfirst
    rw [← hfirst, times_add, hfirst]
    exact Option.bind_congr fun y _ => times_times 8 _ y
  apply hrounds
  split
  · omega
  · omega

/-- The action of `adc_flush_smoothing`, as long as it stays in the buffer and the index, which has
16 bits, reaches its place. -/
theorem times_zero {i n : Nat} (hin : i + n ≤ s.smoothRealsize) (hwrap : i + n ≤ 2 ^ 16) :
    times (fun r : Channel × Nat =>
        (r.1.storeSmooth r.2 0).map fun s => (s, (r.2 + 1) % 2 ^ 16)) n (s, i % 2 ^ 16) =
      some ({ s with
        smoothbuf := fun j => if i ≤ j ∧ j < i + n then 0 else s.smoothbuf j },
        (i + n) % 2 ^ 16) := by
  induction n generalizing s i with
  | zero =>
      have hnone : (fun j => if i ≤ j ∧ j < i + 0 then 0 else s.smoothbuf j) = s.smoothbuf := by
        funext j
        exact if_neg (by omega)
      rw [times, hnone, Nat.add_zero]
  | succ n ih =>
      have hstore : s.storeSmooth i 0 =
          some { s with smoothbuf := Function.update s.smoothbuf i 0 } := if_pos (by omega)
      have hindex : i % 2 ^ 16 = i := Nat.mod_eq_of_lt (by omega)
      have hrest := ih (s := { s with smoothbuf := Function.update s.smoothbuf i 0 }) (i := i + 1)
        (by rw [Nat.add_right_comm]; exact hin) (by omega)
      simp only [times, hindex, hstore, Option.map_some, Option.bind_some]
      rw [hrest, Nat.add_right_comm, Nat.add_assoc]
      refine congrArg (fun buf => some ({ s with smoothbuf := buf }, (i + (n + 1)) % 2 ^ 16)) ?_
      funext j
      dsimp only
      by_cases hj : j = i
      · subst hj
        rw [if_neg (by omega), if_pos (by omega), Function.update_self]
      · rw [Function.update_of_ne hj]
        by_cases hlt : i + 1 ≤ j ∧ j < i + 1 + n
        · rw [if_pos (by omega), if_pos (by omega)]
        · rw [if_neg (by omega), if_neg (by omega)]

/-- **A flush** stays in the buffer and zeroes it. -/
theorem adcFlushSmoothing_eq (hlog : s.logsmoothlen ≤ 15) (hpos : 0 < s.logsmoothlen) :
    ∃ s', adcFlushSmoothing s = some s' ∧ s'.logsmoothlen = s.logsmoothlen ∧ s'.smoothidx = 0 ∧
      s'.smoothsum = 0 ∧ s'.flags.smoothReady = false ∧
      ∀ i, i < s.smoothRealsize → s'.smoothbuf i = 0 := by
  have hsize : 0 < s.smoothRealsize := Nat.pow_pos (by decide)
  have hwrap : s.smoothRealsize ≤ 2 ^ 15 := Nat.pow_le_pow_right (by decide) hlog
  have hzero := times_zero (i := 0) (n := s.smoothRealsize) (s := { s with
    smoothidx := 0, smoothsum := 0, flags := { s.flags with smoothReady := false } })
    (Nat.le_of_eq (Nat.zero_add _)) (by omega)
  rw [Nat.zero_mod] at hzero
  rw [← duffDevice8_eq hsize] at hzero
  simp only [adcFlushSmoothing, if_pos hpos]
  refine ⟨_, congrArg (Option.map Prod.fst) hzero, rfl, rfl, rfl, rfl, ?_⟩
  intro i hi
  exact if_pos ⟨Nat.zero_le i, by rw [Nat.zero_add]; exact hi⟩

end

/-! ## The invariant -/

open Finset in
/-- The buffer is a ring with the window of the samples consumed since the last flush, the
next slot is the one of the oldest sample, and the sum is that of the window. -/
structure Averaging (k : Nat) (s : System) : Prop where
  logsmoothlen : s.ch.logsmoothlen = k
  idx_le : s.ch.smoothidx ≤ 2 ^ k
  idx_consumed : s.ch.smoothidx ≤ s.consumed.length
  idx_mod : s.ch.smoothidx % 2 ^ k = s.consumed.length % 2 ^ k
  ready : s.ch.flags.smoothReady = true → 2 ^ k ≤ s.consumed.length
  ring : Ring.Holds s.ch.smoothbuf (2 ^ k) s.consumed.length (Window.last (2 ^ k) 0 s.consumed)
  sum_buf : s.ch.smoothsum.toNat = ∑ i ∈ range (2 ^ k), (s.ch.smoothbuf i).toNat
  sum_window : s.ch.smoothsum.toNat = ((Window.last (2 ^ k) 0 s.consumed).map UInt16.toNat).sum
  processed : ∀ r ∈ s.processed, 2 ^ k ≤ r.1.length ∧ r.2.toNat = mean (2 ^ k) r.1

section

variable {k : Nat} {s s' : System}

theorem Averaging.smoothed (h : Averaging k s) : Smoothed k s :=
  ⟨h.sum_buf, h.idx_le, h.processed⟩

/-- The samples have 16 bits. -/
theorem sum_le (xs : List UInt16) : (xs.map UInt16.toNat).sum ≤ xs.length * 65535 := by
  induction xs with
  | nil => simp
  | cons x xs ih =>
      have hx := x.toNat_lt
      rw [List.length_cons, List.map_cons, List.sum_cons]
      omega

/-- One term of a sum of 32 bits is exchanged. -/
theorem toNat_exchange {sum : UInt32} {old new : UInt16} {rest : Nat}
    (hsum : sum.toNat = old.toNat + rest) (hlt : rest + new.toNat < 2 ^ 32) :
    (sum - old.toUInt32 + new.toUInt32).toNat = rest + new.toNat := by
  have hold : old.toUInt32.toNat = old.toNat := UInt16.toNat_toUInt32 old
  have hnew : new.toUInt32.toNat = new.toNat := UInt16.toNat_toUInt32 new
  have hle : old.toUInt32 ≤ sum := by
    rw [UInt32.le_iff_toNat_le]
    omega
  have hsub := UInt32.toNat_sub_of_le sum old.toUInt32 hle
  rw [UInt32.toNat_add, hsub, hold, hnew, hsum, Nat.add_sub_cancel_left]
  exact Nat.mod_eq_of_lt hlt

/-- **A sample is consumed.** -/
theorem Averaging.smoothData (h : Averaging k s) (hk : k ≤ 15) :
    ∃ ch, adcSmoothData s.sampleBuf s.ch = some ch ∧
      (s.ch.flags.smoothReady = true → 2 ^ k ≤ s.consumed.length) ∧
      ∀ reqsamples, Averaging k { s with
        ch := { ch with reqsamples := reqsamples }
        consumed := s.consumed ++ [(s.ch.takeOldest s.sampleBuf).1] } := by
  have hpos : 0 < 2 ^ k := Nat.pow_pos (by decide)
  have hpow : 2 ^ k ≤ 2 ^ 15 := Nat.pow_le_pow_right (by decide) hk
  have hsize : s.ch.smoothRealsize = 2 ^ k := congrArg (2 ^ ·) h.logsmoothlen
  obtain ⟨ch, hch, hlog, hidx, hready, hbuf, hsum⟩ :=
    @adcSmoothData_eq s.ch s.sampleBuf (by rw [h.logsmoothlen]; exact hk)
      (by rw [hsize]; exact h.idx_le)
  refine ⟨ch, hch, h.ready, ?_⟩
  intro reqsamples
  generalize (s.ch.takeOldest s.sampleBuf).1 = x at *
  rw [hsize, h.idx_mod] at hidx hbuf hsum
  have hmod : s.consumed.length % 2 ^ k < 2 ^ k := Nat.mod_lt _ hpos
  have hlen : (s.consumed ++ [x]).length = s.consumed.length + 1 := by simp
  -- the oldest sample is the first of the window
  obtain ⟨old, rest, hwindow⟩ : ∃ old rest, Window.last (2 ^ k) 0 s.consumed = old :: rest := by
    apply List.exists_cons_of_length_pos
    rw [Window.length_last]
    exact hpos
  have hrest : rest.length + 1 = 2 ^ k := by
    rw [← Window.length_last (2 ^ k) 0 s.consumed, hwindow, List.length_cons]
  have hring := h.ring
  have hsumWindow := h.sum_window
  rw [hwindow] at hring
  rw [hwindow, List.map_cons, List.sum_cons] at hsumWindow
  have hnext : Window.last (2 ^ k) 0 (s.consumed ++ [x]) = rest ++ [x] := by
    rw [Window.last_snoc hpos, hwindow, List.tail_cons]
  rw [hring.1] at hsum
  have hexact : ch.smoothsum.toNat = (rest.map UInt16.toNat).sum + x.toNat := by
    rw [hsum]
    apply toNat_exchange hsumWindow
    have hle := sum_le rest
    have hx := x.toNat_lt
    omega
  refine ⟨hlog.trans h.logsmoothlen, ?_, ?_, ?_, ?_, ?_, ?_, ?_, h.processed⟩
  · change ch.smoothidx ≤ 2 ^ k
    omega
  · change ch.smoothidx ≤ _
    rw [hlen, hidx]
    exact Nat.succ_le_succ (Nat.mod_le _ _)
  · change ch.smoothidx % 2 ^ k = _
    rw [hlen, hidx, Nat.mod_add_mod]
  · intro hr
    change ch.flags.smoothReady = true at hr
    rw [hready, Bool.or_eq_true, decide_eq_true_iff, hsize] at hr
    rw [hlen]
    rcases hr with hwas | hwrap
    · exact Nat.le_succ_of_le (h.ready hwas)
    · have hle := h.idx_consumed
      omega
  · change Ring.Holds ch.smoothbuf _ _ _
    rw [hlen, hnext, hbuf]
    apply Window.holds_turn hring (by rw [List.length_cons]; exact hrest) hpos
    · exact Function.update_self _ _ _
    · intro i hi
      exact Function.update_of_ne hi _ _
  · change ch.smoothsum.toNat = ∑ i ∈ _, (ch.smoothbuf i).toNat
    have hupdate := Window.sum_update (Finset.mem_range.mpr hmod)
      (fun i => (s.ch.smoothbuf i).toNat) x.toNat
    have hterms : ∑ i ∈ Finset.range (2 ^ k), (ch.smoothbuf i).toNat =
        ∑ i ∈ Finset.range (2 ^ k), Function.update (fun i => (s.ch.smoothbuf i).toNat)
          (s.consumed.length % 2 ^ k) x.toNat i := by
      rw [hbuf]
      exact Finset.sum_congr rfl fun i _ => Function.apply_update (fun _ => UInt16.toNat) _ _ _ i
    have hold := congrArg UInt16.toNat hring.1
    have hwas := h.sum_buf
    rw [hterms, hexact]
    omega
  · change ch.smoothsum.toNat = _
    rw [hnext, hexact]
    simp

/-- The mean from the sum of the window. -/
theorem toNat_shiftRight_sum {sum : UInt32} {consumed : List UInt16} (hk : k ≤ 15)
    (hfull : 2 ^ k ≤ consumed.length)
    (hsum : sum.toNat = ((Window.last (2 ^ k) 0 consumed).map UInt16.toNat).sum) :
    (sum >>> k.toUInt32).toUInt16.toNat = mean (2 ^ k) consumed := by
  have hpow : 2 ^ k ≤ 2 ^ 15 := Nat.pow_le_pow_right (by decide) hk
  have hk32 : k.toUInt32.toNat % 32 = k := by
    change k % 2 ^ 32 % 32 = k
    omega
  have hquot : (sum >>> k.toUInt32).toNat = mean (2 ^ k) consumed := by
    rw [UInt32.toNat_shiftRight, hk32, Nat.shiftRight_eq_div_pow, hsum, Window.last_eq hfull, mean]
  have hsmall : mean (2 ^ k) consumed < 2 ^ 16 := by
    rw [mean, Nat.div_lt_iff_lt_mul (Nat.pow_pos (by decide))]
    have hle := sum_le (consumed.drop (consumed.length - 2 ^ k))
    rw [List.length_drop, Nat.sub_sub_self hfull] at hle
    have hpos : 0 < 2 ^ k := Nat.pow_pos (by decide)
    omega
  rw [UInt32.toNat_toUInt16, hquot]
  exact Nat.mod_eq_of_lt hsmall

/-- **A flush** begins again with an empty window. -/
theorem averaging_flush {s : Channel} (sampleBuf : Nat → UInt16) (hpos : 1 ≤ k) (hk : k ≤ 15)
    (hlog : s.logsmoothlen = k) :
    ∃ ch, adcFlushSmoothing s = some ch ∧ ∀ processed : List (List UInt16 × UInt16),
      (∀ r ∈ processed, 2 ^ k ≤ r.1.length ∧ r.2.toNat = mean (2 ^ k) r.1) →
      Averaging k ⟨ch, sampleBuf, [], processed⟩ := by
  subst hlog
  obtain ⟨ch, hch, hlog, hidx, hsum, hready, hzero⟩ := adcFlushSmoothing_eq hk hpos
  have htwo : 0 < 2 ^ s.logsmoothlen := Nat.pow_pos (by decide)
  refine ⟨ch, hch, ?_⟩
  intro processed hprocessed
  refine ⟨hlog, ?_, ?_, ?_, ?_, ?_, ?_, ?_, hprocessed⟩
  · change ch.smoothidx ≤ _
    omega
  · change ch.smoothidx ≤ 0
    omega
  · change ch.smoothidx % _ = 0 % _
    rw [hidx]
  · intro h
    cases hready.symm.trans h
  · rw [Window.last_nil]
    apply Window.holds_replicate
    intro i
    exact hzero (i % 2 ^ s.logsmoothlen) (Nat.mod_lt i htwo)
  · change ch.smoothsum.toNat = ∑ i ∈ _, (ch.smoothbuf i).toNat
    rw [hsum]
    apply (Finset.sum_eq_zero _).symm
    intro i hi
    rw [hzero i (Finset.mem_range.mp hi)]
    rfl
  · change ch.smoothsum.toNat = _
    rw [hsum]
    simp

/-- **Any step** while samples are read only when there are some. -/
theorem Averaging.step (h : Averaging k s) (hpos : 1 ≤ k) (hk : k ≤ 15) {a : Action}
    (ha : Available s a) : ∃ s', step s a = some s' ∧ Averaging k s' := by
  obtain ⟨ch, hch, hfull, hnext⟩ := h.smoothData hk
  cases a with
  | other sampleBuf ch =>
      exact ⟨_, rfl, h.logsmoothlen, h.idx_le, h.idx_consumed, h.idx_mod, h.ready, h.ring,
        h.sum_buf, h.sum_window, h.processed⟩
  | smoothData =>
      refine ⟨_, by rw [Smoothing.step, hch, Option.map_some], ?_⟩
      exact hnext ch.reqsamples
  | getProcessedSample =>
      have havailable : 0 < adcSamplesAvailable s.ch := ha
      have hlog : 0 < s.ch.logsmoothlen := by
        rw [h.logsmoothlen]
        exact hpos
      by_cases hready : s.ch.flags.smoothReady = true
      · obtain ⟨reqsamples, hget⟩ := adcGetProcessedSample_ready havailable hlog hready hch
        have hstep := hnext reqsamples
        have hcall := congrArg (Option.map fun r : Channel × UInt16 =>
          if s.ch.flags.smoothReady then
            let consumed := s.consumed ++ [(s.ch.takeOldest s.sampleBuf).1]
            { s with
              ch := r.1
              consumed := consumed
              processed := s.processed ++ [(consumed, r.2)] }
          else { s with ch := r.1 }) hget
        rw [Option.map_some, if_pos hready] at hcall
        refine ⟨_, hcall, ⟨hstep.logsmoothlen, hstep.idx_le, hstep.idx_consumed, hstep.idx_mod,
          hstep.ready, hstep.ring, hstep.sum_buf, hstep.sum_window, ?_⟩⟩
        intro r hr
        rw [List.mem_append, List.mem_singleton] at hr
        rcases hr with hold | hlast
        · exact h.processed r hold
        · subst hlast
          have hlen : 2 ^ k ≤ (s.consumed ++ [(s.ch.takeOldest s.sampleBuf).1]).length := by
            rw [List.length_append]
            exact Nat.le_add_right_of_le (hfull hready)
          have hlogs : ch.logsmoothlen = k := hstep.logsmoothlen
          refine ⟨hlen, ?_⟩
          dsimp only
          rw [hlogs]
          exact toNat_shiftRight_sum hk hlen hstep.sum_window
      · have hne : ¬ (0 < s.ch.logsmoothlen ∧ s.ch.flags.smoothReady = true) :=
          fun hboth => hready hboth.2
        simp only [Smoothing.step, adcGetProcessedSample, if_pos havailable, if_neg hne,
          if_neg (Nat.ne_of_gt hlog), Option.map_some, if_neg hready]
        exact ⟨_, rfl, h⟩
  | flush =>
      obtain ⟨ch, hch, hstart⟩ := averaging_flush (s := s.ch) s.sampleBuf hpos hk h.logsmoothlen
      refine ⟨_, by rw [Smoothing.step, hch, Option.map_some], ?_⟩
      have hflushed := hstart s.processed h.processed
      exact hflushed

end

/-- **The moving average.**  From a change of the smoothing length on, which stays in the
buffer, every sequence of calls does too, and leaves the channel as it is promised. -/
theorem smoothed_of_available {k : Nat} (hpos : 1 ≤ k) (hk : k ≤ 15) (c : Channel)
    (allocated : Bool) :
    ∃ r, adcUpdateSmoothing c k allocated = some r ∧
      (r.2 = .PLATFORM_OK → ∀ sampleBuf actions,
        Transition.Conforming step Available ⟨r.1, sampleBuf, [], []⟩ actions →
        ∃ s, Transition.run step ⟨r.1, sampleBuf, [], []⟩ actions = some s ∧ Smoothed k s) := by
  by_cases hfailed : k ≠ c.logsmoothlen ∧ allocated = false
  · refine ⟨_, by rw [adcUpdateSmoothing, if_pos hfailed, if_pos (by omega)], ?_⟩
    intro hok
    cases hok
  · obtain ⟨ch, hch, hstart⟩ :=
      averaging_flush (s := { c with logsmoothlen := k }) (fun _ => 0) hpos hk rfl
    refine ⟨_, by rw [adcUpdateSmoothing, if_neg hfailed, hch, Option.map_some], ?_⟩
    intro _ sampleBuf actions hactions
    have hinit : Averaging k ⟨{ ch with desc := bufFlush ch.desc }, sampleBuf, [], []⟩ := by
      have h := hstart [] (by simp)
      exact ⟨h.logsmoothlen, h.idx_le, h.idx_consumed, h.idx_mod, h.ready, h.ring, h.sum_buf,
        h.sum_window, h.processed⟩
    obtain ⟨s, hrun, hs⟩ := Transition.run_of_total
      (fun s a h ha => Averaging.step h hpos hk ha) hinit hactions
    exact ⟨s, hrun, hs.smoothed⟩

/-- A channel after the start, and the same channel with a fresh sample. -/
def idleChannel : Channel := adcInitChState 0 false ⟨fun _ => 0⟩

def conversion (v : UInt16) : Action := .other (fun _ => v) (idleChannel.setFresh true)

/-- Two samples warm the filter up, and the next two are processed. -/
def fourSamples : List Action :=
  [conversion 10, .smoothData, conversion 20, .smoothData, conversion 30, .smoothData,
    conversion 41, .getProcessedSample]

theorem smoothed_fourSamples : ∃ ch s, Transition.run step ⟨ch, fun _ => 0, [], []⟩ fourSamples =
    some s ∧ s.processed = [([10, 20, 30, 41], 35)] ∧ Smoothed 1 s := by
  obtain ⟨r, hr, h⟩ := smoothed_of_available (k := 1) (by decide) (by decide) idleChannel true
  obtain rfl := Option.some.inj hr
  obtain ⟨s, hrun, hs⟩ := h rfl (fun _ => 0) fourSamples (by decide)
  refine ⟨_, s, hrun, ?_, hs⟩
  obtain rfl := Option.some.inj hrun
  rfl

end Smoothing

end Adc
