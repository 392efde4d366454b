import EluaWebServer.Adc.Frames

/-!
# The pointers of a channel's buffer

The buffer of a channel keeps its pointers while it is used, also across requests that
leave its size as it is.  Whatever the calls and the interrupts do, the write pointer is
as far from the read pointer as the count says, with the sample that is being read.
-/

namespace Adc

open Charbuf Charbuf.System Memory

variable {n : Nat} {s s' : Sys n} {id : Fin n}

/-! ## The invariant of the pointers -/

/-- The element to be read has been found in the buffer. -/
def Started : Reader → Prop
  | .tested _ | .copied _ => True
  | _ => False

/-- The pointers and the count of a buffer. -/
structure Pointers (p : BufDesc) (reader : Reader) : Prop where
  ptrs : ∃ r, p.rptr = p.realDsize * (r % p.slots) ∧
    p.wptr = p.realDsize * ((r + (held reader).length + p.count) % p.slots)
  count : p.count ≤ p.realSize + 1
  started : Started reader → p.count ≠ 0

/-- A buffer of samples that has no more than 64 kilobytes has its pointers in step. -/
structure Aligned (p : BufDesc) (reader : Reader) : Prop where
  logdsize : p.logdsize = BUF_DSIZE_U16
  pointers : Sized p.logsize p.logdsize → Pointers p reader

section

variable {p : BufDesc} {reader : Reader}

theorem Sized.count_lt (h : Sized p.logsize p.logdsize) (hcount : p.count ≤ p.realSize) :
    p.count + 1 < 2 ^ 16 := by
  have hle : p.realSize ≤ 2 ^ 15 :=
    Nat.pow_le_pow_right (by decide) (by have := h.size_le; omega)
  omega

theorem aligned_bufFlush (hdsize : p.logdsize = BUF_DSIZE_U16) : Aligned (bufFlush p) .idle := by
  refine ⟨hdsize, fun _ => ⟨⟨0, ?_, ?_⟩, Nat.zero_le _, False.elim⟩⟩
  · rw [Nat.zero_mod, Nat.mul_zero]
    rfl
  · change 0 = _ * ((0 + 0 + 0) % _)
    rw [Nat.zero_mod, Nat.mul_zero]

/-- `buf_set` that is followed by a flush, or has failed. -/
theorem aligned_bufSet (p : BufDesc) (logsize : Nat) (allocated : Bool) :
    let r := bufSet p logsize BUF_DSIZE_U16 allocated
    Aligned (if r.2 = .PLATFORM_OK then bufFlush r.1 else r.1) .idle := by
  intro r
  have hdsize : r.1.logdsize = BUF_DSIZE_U16 := by
    simp only [r, bufSet]
    split <;> rfl
  split
  · exact aligned_bufFlush hdsize
  · rename_i hfailed
    refine ⟨hdsize, fun hsized => absurd ?_ hsized.enabled⟩
    -- only without memory does it fail, and then the buffer is disabled
    simp only [r, bufSet] at hfailed ⊢
    split at hfailed
    · exact absurd rfl hfailed
    · rename_i hnone
      rw [if_neg hnone]

theorem aligned_init (logsize : Nat) (allocated : Bool) (m : Mem) :
    Aligned (bufSet (.fresh m) logsize BUF_DSIZE_U16 allocated).1 .idle := by
  have hflush : (bufSet (.fresh m) logsize BUF_DSIZE_U16 allocated).1 =
      bufFlush (bufSet (.fresh m) logsize BUF_DSIZE_U16 allocated).1 := by
    simp only [bufSet, bufFlush]
    split <;> rfl
  rw [hflush]
  refine aligned_bufFlush ?_
  simp only [bufSet]
  split <;> rfl

/-- Writing, with or without room. -/
theorem Aligned.bufWrite (h : Aligned p reader) (data : Mem) :
    Aligned (Charbuf.bufWrite p data).1 reader := by
  rw [Charbuf.bufWrite]
  split
  · exact h
  · split
    · exact h
    · rename_i hroom
      refine ⟨h.logdsize, fun hsized => ?_⟩
      change Sized p.logsize p.logdsize at hsized
      obtain ⟨⟨r, hrptr, hwptr⟩, hcount, hstarted⟩ := h.pointers hsized
      have hlt := Sized.count_lt hsized (Nat.le_of_not_lt hroom)
      have hnext : (p.count + 1) % 2 ^ 16 = p.count + 1 := Nat.mod_eq_of_lt hlt
      refine ⟨⟨r, hrptr, ?_⟩, ?_, ?_⟩
      · change p.modIncr p.wptr =
          p.realDsize * ((r + (held reader).length + (p.count + 1) % 2 ^ 16) % p.slots)
        rw [hnext, hwptr, hsized.modIncr_slot, Nat.add_assoc]
      · change (p.count + 1) % 2 ^ 16 ≤ p.realSize + 1
        omega
      · intro _
        change (p.count + 1) % 2 ^ 16 ≠ 0
        omega

/-- A step of `buf_read` that leaves the buffer as it is. -/
theorem Aligned.congr {reader' : Reader} (h : Aligned p reader) (hheld : held reader' = held reader)
    (hstarted : Started reader' → p.count ≠ 0) : Aligned p reader' := by
  refine ⟨h.logdsize, fun hsized => ?_⟩
  obtain ⟨hptrs, hcount, -⟩ := h.pointers hsized
  exact ⟨hheld ▸ hptrs, hcount, hstarted⟩

/-- A step of `buf_read`. -/
theorem Aligned.bufReadStep (h : Aligned p reader) :
    Aligned (Adc.bufReadStep p reader).1 (Adc.bufReadStep p reader).2 := by
  cases reader with
  | idle => exact h.congr rfl False.elim
  | entered a =>
      by_cases hempty : readEmpty p = true
      · have hstep : Adc.bufReadStep p (.entered a) = (p, .idle) := by
          simp only [Adc.bufReadStep, System.readStep, if_pos hempty]
        rw [hstep]
        exact h.congr rfl False.elim
      · have hstep : Adc.bufReadStep p (.entered a) = (p, .tested a) := by
          simp only [Adc.bufReadStep, System.readStep, if_neg hempty]
        rw [hstep]
        refine h.congr rfl ?_
        intro _ hzero
        exact hempty (by simp [readEmpty, hzero])
  | tested a =>
      refine ⟨h.logdsize, fun hsized => ?_⟩
      obtain ⟨hptrs, hcount, hstarted⟩ := h.pointers hsized
      exact ⟨hptrs, hcount, hstarted⟩
  | copied bs =>
      refine ⟨h.logdsize, fun hsized => ?_⟩
      obtain ⟨⟨r, hrptr, hwptr⟩, hcount, hstarted⟩ := h.pointers hsized
      obtain ⟨c, hc⟩ := Nat.exists_eq_succ_of_ne_zero (hstarted trivial)
      have hdec : (readDecrement p).count = c := count_readDecrement hc
      refine ⟨⟨r, hrptr, ?_⟩, ?_, False.elim⟩
      · change p.wptr = p.realDsize * ((r + 1 + (readDecrement p).count) % p.slots)
        have hpos : r + (held (.copied bs)).length + p.count = r + 1 + c := by
          rw [hc, held, List.length_nil]
          omega
        rw [hdec, hwptr, hpos]
      · change (readDecrement p).count ≤ p.realSize + 1
        omega
  | decremented bs =>
      refine ⟨h.logdsize, fun hsized => ?_⟩
      obtain ⟨⟨r, hrptr, hwptr⟩, hcount, -⟩ := h.pointers hsized
      refine ⟨⟨r + 1, ?_, hwptr⟩, hcount, False.elim⟩
      exact (congrArg p.modIncr hrptr).trans (Sized.modIncr_slot hsized r)

/-- A whole `buf_read`. -/
theorem Aligned.bufRead (h : Aligned p .idle) : Aligned (Charbuf.bufRead p).1 .idle := by
  rw [Charbuf.bufRead]
  split
  · exact h
  · rename_i hsome
    have hcount : p.count ≠ 0 := by
      intro hzero
      exact hsome (by simp [readEmpty, hzero])
    have hcopied : Aligned p (.copied []) := h.congr rfl fun _ => hcount
    exact hcopied.bufReadStep.bufReadStep

end

/-! ## The buffers of the channels -/

theorem desc_adcSmoothData {buf : Nat → UInt16} {c : Channel} (hfresh : c.flags.valueFresh = true) :
    (adcSmoothData buf c).desc = c.desc := by
  unfold adcSmoothData
  dsimp only
  split <;> rfl

theorem aligned_adcSmoothData (buf : Nat → UInt16) {c : Channel} (h : Aligned c.desc .idle) :
    Aligned (adcSmoothData buf c).desc .idle := by
  by_cases hfresh : c.flags.valueFresh = true
  · rw [desc_adcSmoothData hfresh]
    exact h
  · unfold adcSmoothData
    dsimp only
    split <;> exact h.bufRead

theorem aligned_converted {c : Channel} {reader : Reader} (h : Aligned c.desc reader) (v : UInt16) :
    Aligned (c.converted v).desc reader := by
  unfold Channel.converted takeSample
  split
  · rw [desc_adcSmoothData rfl]
    exact h
  · split
    · exact h.bufWrite _
    · exact h

theorem aligned_setupBuffer {p : BufDesc} (h : Aligned p .idle) (logcount : Nat)
    (allocated : Bool) :
    Aligned (setupBuffer p logcount allocated).1 .idle := by
  unfold setupBuffer
  split
  · exact aligned_bufSet p logcount allocated
  · exact h

/-- The channel whose smoothing changes. -/
theorem aligned_adcUpdateSmoothing (d : Dev n) (loglen : Nat) (allocated : Bool)
    (h : Aligned (d.ch id).desc .idle) :
    Aligned ((adcUpdateSmoothing d id loglen allocated).ch id).desc .idle := by
  obtain ⟨d', c, hd', heq, -, hdesc⟩ := adcUpdateSmoothing_eq d id loglen allocated
  have hsame : (d'.ch id).desc = (d.ch id).desc := by
    rcases hd' with rfl | rfl
    · rfl
    · rw [platformAdcStop_ch, Dev.set_ch_self]
  rw [heq, Dev.set_ch_self]
  rcases hdesc with hdesc | hdesc
  · rw [hdesc, hsame]
    exact h
  · rw [hdesc, hsame]
    exact aligned_bufFlush h.logdsize

/-! ## The invariant along a run -/

/-- The places in the sequence and the pointers of a channel's buffer are in order. -/
structure Regular (id : Fin n) (s : Sys n) : Prop where
  sequenced : Sequenced s.dev
  aligned : Aligned (s.dev.ch id).desc (readerOf id s.main)

/-- A call that only changes one channel. -/
theorem Regular.set (h : Regular id s) (j : Fin n) {c : Channel}
    (hptr : c.valuePtr = (s.dev.ch j).valuePtr) (hdesc : c.desc = (s.dev.ch j).desc) :
    Regular id { s with dev := s.dev.set j c } := by
  refine ⟨h.sequenced.congr (sameSequence_set s.dev j hptr), ?_⟩
  have haligned := h.aligned
  by_cases hj : id = j
  · subst hj
    rw [← hdesc] at haligned
    simpa using haligned
  · simpa [hj] using haligned

theorem Regular.main (h : Regular id s) : Regular id (mainStep s) := by
  refine ⟨h.sequenced.congr (mainStep_dev s).1, ?_⟩
  have haligned := h.aligned
  by_cases hch : s.main.channel = some id
  · obtain ⟨d, main⟩ := s
    rw [readerOf_self hch] at haligned
    cases main with
    | idle => cases hch
    | getCount j =>
        have hreader : (mainStep ⟨d, .getCount j⟩).main.reader = .idle := by
          rw [mainStep_getCount]
          dsimp only
          split
          · rfl
          · exact reader_afterAvailable _ j _
        rw [readerOf_idle hreader, mainStep_getCount]
        exact haligned
    | getFresh j =>
        rw [mainStep, readerOf_idle (reader_afterAvailable _ j _)]
        exact haligned
    | smooth j =>
        obtain rfl := Option.some.inj hch
        rw [mainStep, readerOf_idle rfl, Dev.set_ch_self]
        exact aligned_adcSmoothData _ haligned
    | testFresh j =>
        rw [mainStep, readerOf_idle (by dsimp only; split <;> rfl)]
        exact haligned
    | bufRead j reader =>
        obtain rfl := Option.some.inj hch
        rw [mainStep, readerOf_self (channel_afterBufRead _ _ _), Dev.set_ch_self,
          reader_afterBufRead]
        exact Aligned.bufReadStep haligned
    | storeFlags j sample flags =>
        obtain rfl := Option.some.inj hch
        rw [mainStep, readerOf_idle rfl, Dev.set_ch_self]
        exact haligned
    | testReq j sample =>
        rw [mainStep, readerOf_idle (by dsimp only; split <;> rfl)]
        exact haligned
    | storeReq j sample reqsamples =>
        obtain rfl := Option.some.inj hch
        rw [mainStep, readerOf_idle rfl, Dev.set_ch_self]
        exact haligned
    | loadValue j | loadFlags j sample | loadReq j sample =>
        rw [mainStep, readerOf_idle rfl]
        exact haligned
    | waitCount j samples stage =>
        have hreader : (mainStep ⟨d, .waitCount j samples stage⟩).main.reader = .idle := by
          rw [mainStep_waitCount]
          dsimp only
          split
          · rfl
          · exact reader_afterWait j _ _ _
        rw [readerOf_idle hreader, mainStep_waitCount]
        exact haligned
    | waitFresh j samples stage =>
        rw [mainStep, readerOf_idle (reader_afterWait j _ _ _)]
        exact haligned
    | waitBlocking j samples | waitPending j samples =>
        rw [mainStep, readerOf_idle (by dsimp only; split <;> rfl)]
        exact haligned
  · obtain ⟨hch', hsame⟩ := mainStep_other hch
    rw [readerOf_other hch, ← hsame] at haligned
    rw [readerOf_other hch']
    exact haligned

theorem Regular.interrupt (h : Regular id s) (conversions : Fin n → UInt16) :
    Regular id { s with dev := adcIntHandler s.dev conversions } := by
  refine ⟨sequenced_adcIntHandler h.sequenced conversions, ?_⟩
  rw [(adcIntHandler_ch s.dev conversions id).1.desc]
  by_cases hid : id ∈ s.dev.chState
  · rw [(handleSamples_of_mem h.sequenced conversions hid).1]
    have hconv := aligned_converted h.aligned (conversions id)
    split
    · exact hconv
    · exact hconv
  · rw [(handleSamples_of_notMem conversions s.dev 0 hid).1]
    exact h.aligned

/-- Every step keeps the places and the pointers. -/
theorem Regular.step {a : Action n} (h : Regular id s) (hstep : Adc.step s a = some s') :
    Regular id s' := by
  have hidle : s.main = .idle → Aligned (s.dev.ch id).desc .idle := by
    intro hmain
    have haligned := h.aligned
    rwa [hmain] at haligned
  cases a with
  | setup j logcount allocated =>
      simp only [Adc.step, call_eq_some] at hstep
      obtain ⟨hmain, rfl⟩ := hstep
      refine ⟨h.sequenced.congr (sameSequence_adcSetupChannel s.dev j logcount allocated), ?_⟩
      rw [readerOf_idle (by rw [hmain]; rfl)]
      by_cases hj : id = j
      · subst hj
        rw [desc_adcSetupChannel]
        exact aligned_setupBuffer (hidle hmain) logcount allocated
      · rw [(adcSetupChannel_of_ne s.dev hj logcount allocated).1]
        exact hidle hmain
  | start =>
      simp only [Adc.step, call_eq_some] at hstep
      obtain ⟨hmain, rfl⟩ := hstep
      rw [platformAdcStartSequence]
      split
      · exact h
      · refine ⟨⟨(sequenced_adcUpdateDevSequence h.sequenced).chState,
          (sequenced_adcUpdateDevSequence h.sequenced).valuePtr⟩, ?_⟩
        exact (adcUpdateDevSequence_ch s.dev id).desc ▸ h.aligned
  | smoothing j loglen allocated =>
      simp only [Adc.step, call_eq_some] at hstep
      obtain ⟨hmain, rfl⟩ := hstep
      refine ⟨h.sequenced.congr (sameSequence_adcUpdateSmoothing s.dev j loglen allocated), ?_⟩
      rw [readerOf_idle (by rw [hmain]; rfl)]
      by_cases hj : id = j
      · subst hj
        exact aligned_adcUpdateSmoothing s.dev loglen allocated (hidle hmain)
      · rw [(adcUpdateSmoothing_of_ne s.dev hj loglen allocated).1]
        exact hidle hmain
  | blocking j mode | freerunning j mode =>
      simp only [Adc.step, call_eq_some] at hstep
      obtain ⟨hmain, rfl⟩ := hstep
      exact h.set j rfl rfl
  | getProcessedSample j | waitSamples j samples =>
      simp only [Adc.step, Option.map_eq_some_iff, call_eq_some] at hstep
      obtain ⟨s₁, ⟨hmain, rfl⟩, rfl⟩ := hstep
      refine ⟨h.sequenced, ?_⟩
      rw [readerOf_idle rfl]
      exact hidle hmain
  | main =>
      obtain rfl := Option.some.inj hstep
      exact h.main
  | interrupt conversions =>
      obtain rfl := Option.some.inj hstep
      exact h.interrupt conversions

theorem regular_init (id : Fin n) (adcBufSize : Nat) (allocated : Fin n → Bool) (m : Fin n → Mem) :
    Regular id ⟨adcsInit adcBufSize allocated m, .idle⟩ :=
  ⟨sequenced_init adcBufSize allocated m, aligned_init adcBufSize (allocated id) (m id)⟩

end Adc
