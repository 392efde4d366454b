import EluaWebServer.Adc.Smoothing

/-!
# Duff's device

`DUFF_DEVICE_8` enters an unrolled loop in its middle.  It is a machine here that does one action,
or one test of the loop, at a time; the two functions of the character buffers and
`adc_flush_smoothing` run on it.
-/

namespace Utils

open Charbuf Memory Adc

/-- The device in its loop, with the actions that are left of a round and `_times`, or after it. -/
inductive Device (σ : Type) where
  | running (left : Nat) (times : Int32) (s : σ)
  | done (s : σ)

section

variable {σ : Type}

/-- The `switch`: the case is the number of actions up to the test, and case 0 has all eight. -/
def enter (count : Int32) (s : σ) : Device σ :=
  let times := (count + 7) >>> 3
  if count &&& 7 = 0 then .running 8 times s
  else .running (count &&& 7).toNatClampNeg times s

/-- One action, or the test `--_times > 0`. -/
def stepDevice (action : σ → σ) : Device σ → Device σ
  | .running (left + 1) times s => .running left times (action s)
  | .running 0 times s =>
      let times := times - 1
      if 0 < times then .running 8 times s else .done s
  | .done s => .done s

/-- `DUFF_DEVICE_8`, as far as it comes in a number of steps. -/
def duffDevice8 (action : σ → σ) (count : Int32) (s : σ) (fuel : Nat) : Option σ :=
  match (stepDevice action)^[fuel] (enter count s) with
  | .running .. => none
  | .done s => some s

/-- What runs on the device comes to an end, with this result. -/
def Ends (f : Nat → Option σ) (s : σ) : Prop := ∃ n, ∀ fuel, n ≤ fuel → f fuel = some s

end

/-! ## The functions on the device -/

/-- What `s` and `d` point to while an element is copied. -/
structure Pointers where
  src : Mem
  s : Nat
  dst : Mem
  d : Nat

/-- `*d++ = *s++`. -/
def copyByte (p : Pointers) : Pointers :=
  { p with
    dst := ⟨fun i => if i = p.d then p.src p.s else p.dst i⟩
    s := p.s + 1
    d := p.d + 1 }

/-- `buf_write`, with its loop. -/
def bufWrite (p : BufDesc) (data : Mem) (fuel : Nat) : Option (BufDesc × Status) :=
  if p.logsize = BUF_SIZE_NONE then some (p, .PLATFORM_ERR)
  else if p.realSize < p.count then some (p, .PLATFORM_ERR)
  else
    (duffDevice8 copyByte (Int32.ofNat p.realDsize) ⟨data, 0, p.buf, p.wptr⟩ fuel).map fun r =>
      ({ p with
          buf := r.dst
          wptr := p.modIncr p.wptr
          count := (p.count + 1) % 2 ^ 16 }, .PLATFORM_OK)

/-- `buf_read`, with its loop; the element is copied to the beginning of `data`. -/
def bufRead (p : BufDesc) (data : Mem) (fuel : Nat) : Option (BufDesc × Status × Mem) :=
  if readEmpty p then some (p, .PLATFORM_UNDERFLOW, data)
  else
    (duffDevice8 copyByte (Int32.ofNat p.realDsize) ⟨p.buf, p.rptr, data, 0⟩ fuel).map fun r =>
      (readAdvance (readDecrement p), .PLATFORM_OK, r.dst)

/-- `s->smoothbuf[ i++ ] = 0`, with an index of 16 bits; there is no result out of the buffer. -/
def zeroEntry (r : Channel × Nat) : Option (Channel × Nat) :=
  (r.1.storeSmooth r.2 0).map fun s => (s, (r.2 + 1) % 2 ^ 16)

/-- The average starts again. -/
def cleared (s : Channel) : Channel :=
  { s with smoothidx := 0, smoothsum := 0, flags := { s.flags with smoothReady := false } }

/-- `adc_flush_smoothing`, with its loop. -/
def adcFlushSmoothing (s : Channel) (fuel : Nat) : Option (Option Channel) :=
  if 0 < s.logsmoothlen then
    (duffDevice8 (fun r => r.bind zeroEntry) (Int32.ofNat s.smoothRealsize) (some (cleared s, 0))
      fuel).map fun r => r.map Prod.fst
  else some (some (cleared s))

/-! ## The device -/

section

variable {σ : Type} {action : σ → σ}

/-- One round: the actions that are left, and the test. -/
theorem iterate_round (left : Nat) (times : Int32) (s : σ) :
    (stepDevice action)^[left + 1] (.running left times s) =
      if 0 < times - 1 then .running 8 (times - 1) (action^[left] s)
      else .done (action^[left] s) := by
  induction left generalizing s with
  | zero => rfl
  | succ left ih =>
    rw [Function.iterate_succ_apply]
    exact ih (action s)

theorem iterate_done (n : Nat) (s : σ) : (stepDevice action)^[n] (.done s) = .done s := by
  induction n with
  | zero => rfl
  | succ n ih =>
    rw [Function.iterate_succ_apply]
    exact ih

theorem toInt_sub_one {times : Int32} (h : 0 < times.toInt) :
    (times - 1).toInt = times.toInt - 1 := by
  have hone : (1 : Int32).toInt = 1 := rfl
  have hle : (1 : Int32) ≤ times := Int32.le_iff_toInt_le.mpr (by omega)
  rw [Int32.toInt_sub_of_le _ _ (by decide) hle, hone]

/-- **All rounds**: the rest of the first one, and eight actions for each of the others. -/
theorem iterate_rounds (rounds left : Nat) {times : Int32} (s : σ)
    (htimes : times.toInt = rounds + 1) :
    (stepDevice action)^[left + 1 + 9 * rounds] (.running left times s) =
      .done (action^[left + 8 * rounds] s) := by
  have hpred : (times - 1).toInt = rounds := by
    rw [toInt_sub_one (by omega)]
    omega
  have hzero : (0 : Int32).toInt = 0 := rfl
  rw [Nat.add_comm, Function.iterate_add_apply, iterate_round]
  induction rounds generalizing left times s with
  | zero =>
    rw [if_neg (by rw [Int32.lt_iff_toInt_lt]; omega)]
    exact iterate_done 0 _
  | succ rounds ih =>
    have hpred' : (times - 1 - 1).toInt = rounds := by
      rw [toInt_sub_one (by omega)]
      omega
    have hnine : 9 * (rounds + 1) = 9 * rounds + (8 + 1) := by omega
    rw [if_pos (by rw [Int32.lt_iff_toInt_lt]; omega), hnine, Function.iterate_add_apply,
      iterate_round, ih 8 _ (by omega) hpred', ← Function.iterate_add_apply]
    congr 2
    omega

theorem toNat_and_seven (count : Int32) :
    (count &&& 7).toBitVec.toNat = count.toBitVec.toNat % 8 := by
  have hseven : (7 : Int32).toBitVec.toNat = 2 ^ 3 - 1 := rfl
  rw [Int32.toBitVec_and, BitVec.toNat_and, hseven, Nat.and_two_pow_sub_one_eq_mod]

theorem toNatClampNeg_and_seven (count : Int32) (hpos : 0 ≤ count) :
    (count &&& 7).toNatClampNeg = count.toNatClampNeg % 8 := by
  have hnat := toNat_and_seven count
  have hsmall : 2 * (count &&& 7).toBitVec.toNat < 2 ^ 32 := by omega
  have hcase : (count &&& 7).toNatClampNeg = (count &&& 7).toBitVec.toNat :=
    congrArg Int.toNat (BitVec.toInt_eq_toNat_of_lt hsmall)
  rw [hcase, hnat, Int32.toNat_toBitVec_of_le hpos]

/-- No case is 0 but that of a multiple of eight. -/
theorem and_seven_eq_zero_iff (count : Int32) (hpos : 0 ≤ count) :
    count &&& 7 = 0 ↔ count.toNatClampNeg % 8 = 0 := by
  rw [← Int32.toNat_toBitVec_of_le hpos, ← toNat_and_seven, ← Int32.toBitVec_inj]
  exact BitVec.toNat_inj.symm

/-- The rounds, rounded up. -/
theorem toInt_times (count : Int32) (hpos : 1 ≤ count.toInt) (hle : count.toInt ≤ 2 ^ 31 - 8) :
    ((count + 7) >>> 3).toInt = (count.toInt + 7) / 8 := by
  have hseven : (7 : Int32).toInt = 7 := rfl
  have hsum : (count + 7).toInt = count.toInt + 7 := by
    rw [Int32.toInt_add, hseven, Int.bmod_eq_of_le (by omega) (by omega)]
  have hthree : ((3 : Int32).toBitVec.smod 32).toNat = 3 := rfl
  have hshift : ((count + 7) >>> 3).toInt = (count + 7).toInt >>> (3 : Nat) := by
    rw [← hthree]
    exact BitVec.toInt_sshiftRight'
  rw [hshift, hsum, Int.shiftRight_eq_div_pow]
  rfl

/-- **Entering the loop**: the rest of the first round, and full rounds. -/
theorem exists_enter (count : Int32) (hpos : 1 ≤ count.toInt) (hle : count.toInt ≤ 2 ^ 31 - 8)
    (s : σ) :
    ∃ (left rounds : Nat) (times : Int32), enter count s = .running left times s ∧
      times.toInt = rounds + 1 ∧ left + 8 * rounds = count.toNatClampNeg := by
  have hnonneg : (0 : Int32) ≤ count := Int32.le_iff_toInt_le.mpr (Int.le_trans (by decide) hpos)
  have hcount := Int32.toInt_eq_toNatClampNeg hnonneg
  have htimes := toInt_times count hpos hle
  have hzero := and_seven_eq_zero_iff count hnonneg
  unfold enter
  by_cases hmultiple : count.toNatClampNeg % 8 = 0
  · refine ⟨8, (count.toNatClampNeg + 7) / 8 - 1, _, if_pos (hzero.mpr hmultiple), ?_, ?_⟩
    · omega
    · omega
  · have hcase := toNatClampNeg_and_seven count hnonneg
    refine ⟨_, (count.toNatClampNeg + 7) / 8 - 1, _,
      if_neg (fun h => hmultiple (hzero.mp h)), ?_, ?_⟩
    · omega
    · omega

/-- **Duff's device** does the action as many times as it is told to, and ends. -/
theorem duffDevice8_ends (action : σ → σ) (count : Int32) (s : σ) (hpos : 1 ≤ count.toInt)
    (hle : count.toInt ≤ 2 ^ 31 - 8) :
    Ends (duffDevice8 action count s) (action^[count.toNatClampNeg] s) := by
  obtain ⟨left, rounds, times, henter, htimes, hcount⟩ := exists_enter count hpos hle s
  refine ⟨left + 1 + 9 * rounds, ?_⟩
  intro fuel hfuel
  obtain ⟨rest, hrest⟩ := Nat.exists_eq_add_of_le hfuel
  have hdone : (stepDevice action)^[fuel] (enter count s) =
      .done (action^[count.toNatClampNeg] s) := by
    rw [hrest, Nat.add_comm, Function.iterate_add_apply, henter,
      iterate_rounds rounds left s htimes, iterate_done, hcount]
  unfold duffDevice8
  rw [hdone]

/-- A number of actions that is a power of two. -/
theorem duffDevice8_two_pow (action : σ → σ) {k : Nat} (hk : k ≤ 30) (s : σ) :
    Ends (duffDevice8 action (Int32.ofNat (2 ^ k)) s) (action^[2 ^ k] s) := by
  have hpow : 2 ^ k ≤ 2 ^ 30 := Nat.pow_le_pow_right (by decide) hk
  have hpos : 0 < 2 ^ k := Nat.pow_pos (by decide)
  have hint : (Int32.ofNat (2 ^ k)).toInt = (2 ^ k : Nat) :=
    Int32.toInt_ofNat_of_lt (by omega)
  have hnat : (Int32.ofNat (2 ^ k)).toNatClampNeg = 2 ^ k :=
    Int32.toNatClampNeg_ofNat_of_lt (by omega)
  have hends := duffDevice8_ends action (Int32.ofNat (2 ^ k)) s (by omega) (by omega)
  rwa [hnat] at hends

theorem Ends.map {τ : Type} {f : Nat → Option σ} {s : σ} (h : Ends f s) (g : σ → τ) :
    Ends (fun fuel => (f fuel).map g) (g s) := by
  obtain ⟨n, hn⟩ := h
  refine ⟨n, ?_⟩
  intro fuel hfuel
  exact congrArg (Option.map g) (hn fuel hfuel)

end

/-! ## Elements -/

/-- The bytes that are copied are in their new place, and nothing else is changed. -/
def Copied (m' m : Mem) (d : Nat) (src : Mem) (s n : Nat) : Prop :=
  ∀ i, m' i = if d ≤ i ∧ i < d + n then src (s + (i - d)) else m i

/-- What the pointers and the memory are after some bytes. -/
theorem iterate_copyByte (p : Pointers) (n : Nat) :
    (copyByte^[n] p).src = p.src ∧ (copyByte^[n] p).s = p.s + n ∧ (copyByte^[n] p).d = p.d + n ∧
      Copied (copyByte^[n] p).dst p.dst p.d p.src p.s n := by
  induction n with
  | zero =>
    refine ⟨rfl, rfl, rfl, ?_⟩
    intro i
    exact (if_neg (by omega)).symm
  | succ n ih =>
    obtain ⟨hsrc, hs, hd, hdst⟩ := ih
    rw [Function.iterate_succ_apply']
    refine ⟨hsrc, congrArg (· + 1) hs, congrArg (· + 1) hd, ?_⟩
    intro i
    change (if i = (copyByte^[n] p).d then (copyByte^[n] p).src (copyByte^[n] p).s
      else (copyByte^[n] p).dst i) = _
    rw [hsrc, hs, hd, hdst i]
    by_cases hnext : i = p.d + n
    · rw [if_pos hnext, if_pos (by omega)]
      congr 1
      omega
    · rw [if_neg hnext]
      have hbefore : (p.d ≤ i ∧ i < p.d + n) ↔ p.d ≤ i ∧ i < p.d + (n + 1) := by omega
      simp only [hbefore]

theorem copied_storeBytes (m : Mem) (d : Nat) (src : Mem) (s n : Nat) :
    Copied (storeBytes m d (loadBytes src s n)) m d src s n := by
  intro i
  have hlength := length_loadBytes src s n
  by_cases hi : d ≤ i ∧ i < d + n
  · obtain ⟨k, rfl⟩ := Nat.exists_eq_add_of_le hi.1
    have hk : k < (loadBytes src s n).length := by omega
    rw [if_pos hi, storeBytes_of_inside hk, Nat.add_sub_cancel_left]
    simp only [loadBytes, List.getElem_map, List.getElem_range]
  · rw [if_neg hi]
    exact storeBytes_of_outside (by omega)

theorem Copied.unique {m₁ m₂ m : Mem} {d s n : Nat} {src : Mem} (h₁ : Copied m₁ m d src s n)
    (h₂ : Copied m₂ m d src s n) : m₁ = m₂ := by
  have hbyte : m₁.byte = m₂.byte := funext fun i => (h₁ i).trans (h₂ i).symm
  exact congrArg Mem.mk hbyte

/-- The loop of the two functions stores the element. -/
theorem dst_copyByte (p : Pointers) (n : Nat) :
    (copyByte^[n] p).dst = storeBytes p.dst p.d (loadBytes p.src p.s n) :=
  (iterate_copyByte p n).2.2.2.unique (copied_storeBytes _ _ _ _ _)

/-- `buf_write` is not refused. -/
def Accepts (p : BufDesc) : Prop := p.logsize ≠ BUF_SIZE_NONE ∧ p.count ≤ p.realSize

/-- **`buf_write`** does what it does without the device. -/
theorem bufWrite_ends (p : BufDesc) (hlog : p.logdsize ≤ 30) (data : Mem) :
    Ends (bufWrite p data) (Charbuf.bufWrite p data) := by
  by_cases hnone : p.logsize = BUF_SIZE_NONE
  · exact ⟨0, fun fuel _ => (if_pos hnone).trans (congrArg some (if_pos hnone).symm)⟩
  · by_cases hover : p.realSize < p.count
    · refine ⟨0, fun fuel _ => ?_⟩
      rw [bufWrite, Charbuf.bufWrite, if_neg hnone, if_neg hnone, if_pos hover, if_pos hover]
    · obtain ⟨n, hn⟩ := duffDevice8_two_pow copyByte hlog ⟨data, 0, p.buf, p.wptr⟩
      refine ⟨n, fun fuel hfuel => ?_⟩
      have hloop := hn fuel hfuel
      rw [bufWrite, Charbuf.bufWrite, if_neg hnone, if_neg hnone, if_neg hover, if_neg hover]
      change Option.map _ (duffDevice8 copyByte (Int32.ofNat (2 ^ p.logdsize)) _ fuel) = _
      rw [hloop, Option.map_some, dst_copyByte]
      rfl

/-- **`buf_read`** does what it does without the device, and the element is stored. -/
theorem bufRead_ends (p : BufDesc) (hlog : p.logdsize ≤ 30) (data : Mem) :
    Ends (bufRead p data) ((Charbuf.bufRead p).1, (Charbuf.bufRead p).2.1,
      storeBytes data 0 (Charbuf.bufRead p).2.2) := by
  by_cases hempty : readEmpty p = true
  · refine ⟨0, fun fuel _ => ?_⟩
    rw [bufRead, Charbuf.bufRead, if_pos hempty, if_pos hempty]
    rfl
  · obtain ⟨n, hn⟩ := duffDevice8_two_pow copyByte hlog ⟨p.buf, p.rptr, data, 0⟩
    refine ⟨n, fun fuel hfuel => ?_⟩
    have hloop := hn fuel hfuel
    rw [bufRead, Charbuf.bufRead, if_neg hempty, if_neg hempty]
    change Option.map _ (duffDevice8 copyByte (Int32.ofNat (2 ^ p.logdsize)) _ fuel) = _
    rw [hloop, Option.map_some, dst_copyByte]
    rfl

/-! ## The smoothing buffer -/

/-- An action that may fail, a number of times. -/
theorem iterate_bind {σ : Type} (action : σ → Option σ) (n : Nat) (r : Option σ) :
    (fun r : Option σ => r.bind action)^[n] r = r.bind (Smoothing.times action n) := by
  induction n generalizing r with
  | zero => exact (Option.bind_fun_some r).symm
  | succ n ih =>
    rw [Function.iterate_succ_apply, ih, Option.bind_assoc]
    rfl

/-- **`adc_flush_smoothing`** does what it does with the actions one after the other. -/
theorem adcFlushSmoothing_ends (s : Channel) (hlog : s.logsmoothlen ≤ 30) :
    Ends (adcFlushSmoothing s) (Smoothing.adcFlushSmoothing s) := by
  by_cases hpos : 0 < s.logsmoothlen
  · obtain ⟨n, hn⟩ := duffDevice8_two_pow (fun r => r.bind zeroEntry) hlog (some (cleared s, 0))
    refine ⟨n, fun fuel hfuel => ?_⟩
    have hloop := hn fuel hfuel
    rw [iterate_bind, Option.bind_some,
      ← Smoothing.duffDevice8_eq (Nat.pow_pos (by decide))] at hloop
    calc adcFlushSmoothing s fuel
        = Option.map (Option.map Prod.fst) (duffDevice8 (fun r => r.bind zeroEntry)
            (Int32.ofNat (2 ^ s.logsmoothlen)) (some (cleared s, 0)) fuel) := if_pos hpos
      _ = some ((Smoothing.duffDevice8 (2 ^ s.logsmoothlen) zeroEntry (cleared s, 0)).map
            Prod.fst) := congrArg (Option.map (Option.map Prod.fst)) hloop
      _ = some (Smoothing.adcFlushSmoothing s) := congrArg some (if_pos hpos).symm
  · refine ⟨0, fun fuel _ => ?_⟩
    exact (if_neg hpos).trans (congrArg some (if_neg hpos).symm)

/-- The buffer of a channel is zeroed so far, and no further. -/
def Flushed (s : Channel) (zeroed : Nat) : Prop :=
  ∃ s', Ends (adcFlushSmoothing s) (some s') ∧
    ∀ i, s'.smoothbuf i = if i < zeroed then 0 else s.smoothbuf i

/-- The buffer is zeroed as a whole as long as its index reaches all of it. -/
theorem flushed_of_le {s : Channel} (hpos : 0 < s.logsmoothlen) (hlog : s.logsmoothlen ≤ 16) :
    Flushed s (2 ^ s.logsmoothlen) := by
  have hwrap : 2 ^ s.logsmoothlen ≤ 2 ^ 16 := Nat.pow_le_pow_right (by decide) hlog
  have hzero := Smoothing.times_zero (s := cleared s) (i := 0) (n := 2 ^ s.logsmoothlen)
    (Nat.le_of_eq (Nat.zero_add _)) (by omega)
  have hflush : Smoothing.adcFlushSmoothing s = some { cleared s with
      smoothbuf := fun j =>
        if 0 ≤ j ∧ j < 0 + 2 ^ s.logsmoothlen then 0 else s.smoothbuf j } := by
    calc Smoothing.adcFlushSmoothing s
        = (Smoothing.duffDevice8 (2 ^ s.logsmoothlen) zeroEntry (cleared s, 0)).map Prod.fst :=
          if_pos hpos
      _ = (Smoothing.times zeroEntry (2 ^ s.logsmoothlen) (cleared s, 0)).map Prod.fst := by
          rw [Smoothing.duffDevice8_eq (Nat.pow_pos (by decide))]
      _ = _ := congrArg (Option.map Prod.fst) hzero
  have hends := adcFlushSmoothing_ends s (Nat.le_trans hlog (by decide))
  rw [hflush] at hends
  refine ⟨_, hends, ?_⟩
  intro i
  simp only [Nat.zero_le, true_and, Nat.zero_add]

/-- There is no buffer to zero when smoothing is off. -/
theorem flushed_off {s : Channel} (hoff : s.logsmoothlen = 0) : Flushed s 0 := by
  have hnot : ¬ 0 < s.logsmoothlen := by omega
  refine ⟨cleared s, ⟨0, fun fuel _ => if_neg hnot⟩, ?_⟩
  intro i
  exact (if_neg (Nat.not_lt_zero i)).symm

/-- **The loop.**  The device does any action as often as it is told to and ends; an element that
is written or read is copied once, byte by byte, and a smoothing buffer of up to 65536 entries is
zeroed as a whole, where there is one. -/
theorem duffDevice8_copies :
    (∀ (σ : Type) (action : σ → σ) (count : Int32) (s : σ), 1 ≤ count.toInt →
        count.toInt ≤ 2 ^ 31 - 8 →
        Ends (duffDevice8 action count s) (action^[count.toNatClampNeg] s)) ∧
      (∀ (p : BufDesc) (data : Mem), Accepts p → 2 ^ p.logdsize ≤ 2 ^ 31 - 8 →
        ∃ desc, Ends (bufWrite p data) (desc, .PLATFORM_OK) ∧
          Copied desc.buf p.buf p.wptr data 0 (2 ^ p.logdsize)) ∧
      (∀ (p : BufDesc) (data : Mem), readEmpty p = false → 2 ^ p.logdsize ≤ 2 ^ 31 - 8 →
        ∃ data', Ends (bufRead p data) (readAdvance (readDecrement p), .PLATFORM_OK, data') ∧
          Copied data' data 0 p.buf p.rptr (2 ^ p.logdsize)) ∧
      ∀ s : Channel, (0 < s.logsmoothlen → s.logsmoothlen ≤ 16 → Flushed s (2 ^ s.logsmoothlen)) ∧
        (s.logsmoothlen = 0 → Flushed s 0) := by
  have hlog : ∀ k, 2 ^ k ≤ 2 ^ 31 - 8 → k ≤ 30 := by
    intro k hk
    have hlt : 2 ^ k < 2 ^ 31 := by omega
    have hk' := (Nat.pow_lt_pow_iff_right (by decide)).mp hlt
    omega
  refine ⟨?_, ?_, ?_, ?_⟩
  · intro σ action count s hpos hle
    exact duffDevice8_ends action count s hpos hle
  · intro p data haccepts hsize
    have hends := bufWrite_ends p (hlog _ hsize) data
    rw [Charbuf.bufWrite, if_neg haccepts.1, if_neg (Nat.not_lt.mpr haccepts.2)] at hends
    exact ⟨_, hends, copied_storeBytes p.buf p.wptr data 0 p.realDsize⟩
  · intro p data hfull hsize
    have hends := bufRead_ends p (hlog _ hsize) data
    rw [Charbuf.bufRead, if_neg (by rw [hfull]; exact Bool.false_ne_true)] at hends
    exact ⟨_, hends, copied_storeBytes data 0 p.buf p.rptr p.realDsize⟩
  · intro s
    exact ⟨flushed_of_le, flushed_off⟩

/-- A channel without smoothing, whose memory is not zero. -/
def unsmoothed : Channel :=
  { flags := ⟨false, false, false, false, false⟩
    logsmoothlen := 0
    smoothidx := 0
    smoothsum := 0
    smoothbuf := fun _ => 7
    reqsamples := 0
    valuePtr := 0
    desc := BufDesc.fresh ⟨fun _ => 0⟩ }

/-- Nine actions: one, and a full round. -/
theorem duffDevice8_nine : Ends (duffDevice8 Nat.succ 9 0) 9 :=
  duffDevice8_copies.1 Nat Nat.succ 9 0 (by decide) (by decide)

/-- Without smoothing not even the one entry of `SMOOTH_REALSIZE` is zeroed. -/
theorem not_flushed_unsmoothed : ¬ Flushed unsmoothed (2 ^ unsmoothed.logsmoothlen) := by
  intro hflushed
  obtain ⟨s', hends, hzero⟩ := hflushed
  obtain ⟨n, hn⟩ := hends
  have hsame : some (some (cleared unsmoothed)) = some (some s') := hn n (Nat.le_refl n)
  have hseven : (0 : UInt16) = 7 := by
    rw [← Option.some.inj (Option.some.inj hsame)] at hzero
    exact (hzero 0).symm
  exact absurd hseven (by decide)

end Utils
