import EluaWebServer.Adc.Fetching

/-!
# In the order of the conversions

An accepted request starts out served, every step that comes in time keeps it so, and so the
values are the conversions in their order along every run.
-/

namespace Adc

open Charbuf Charbuf.System Memory

variable {n : Nat} {s s' : Sys n} {id : Fin n} {q : Request} {waiting : List UInt16}

/-! ## A new request -/

/-- The buffer of a new request has room for its samples, and nothing in it. -/
theorem buffered_setupBuffer {p : BufDesc} (h : Aligned p .idle) {logcount : Nat}
    (hle : logcount ≤ 15) {allocated : Bool}
    (hok : (setupBuffer p logcount allocated).2 = .PLATFORM_OK)
    (hempty : bufGetSize p = 2 ^ logcount → bufGetCount p = 0) :
    Buffered (setupBuffer p logcount allocated).1 .idle (2 ^ logcount) [] := by
  by_cases hsize : 2 ^ logcount = bufGetSize p
  · have hsame : setupBuffer p logcount allocated = (p, .PLATFORM_OK) := if_neg (not_not.mpr hsize)
    have hcount : p.count = 0 := hempty hsize.symm
    have henabled : p.logsize ≠ BUF_SIZE_NONE := by
      intro hnone
      rw [bufGetSize, if_pos hnone] at hsize
      exact absurd hsize (Nat.pow_pos (by decide)).ne'
    rw [bufGetSize, if_neg henabled, BufDesc.realSize] at hsize
    have hlog : p.logsize - p.logdsize = logcount :=
      (Nat.pow_right_injective (le_refl 2) hsize).symm
    have hd : p.logdsize = 1 := h.logdsize
    have hpos : 0 < p.logsize := Nat.pos_of_ne_zero henabled
    have hsized : Sized p.logsize p.logdsize := ⟨henabled, by omega, by omega, by omega⟩
    obtain ⟨⟨r, hrptr, hwptr⟩, -, -⟩ := h.pointers hsized
    rw [hcount] at hwptr
    rw [hsame]
    refine .inr ⟨r, [], ⟨⟨hsized, hwptr, trivial, Nat.zero_le _⟩, hrptr, hcount, trivial⟩, ?_,
      hd, rfl⟩
    change 2 ^ (min p.logsize 16 - p.logdsize) = 2 ^ logcount
    rw [Nat.min_eq_left (by omega), hlog]
  · have hset : setupBuffer p logcount allocated =
        (if (bufSet p logcount BUF_DSIZE_U16 allocated).2 = .PLATFORM_OK then
          bufFlush (bufSet p logcount BUF_DSIZE_U16 allocated).1
          else (bufSet p logcount BUF_DSIZE_U16 allocated).1,
          (bufSet p logcount BUF_DSIZE_U16 allocated).2) := if_pos hsize
    rw [hset] at hok ⊢
    rw [if_pos hok]
    cases allocated with
    | true =>
        have hsized : Sized (logcount + 1) 1 := ⟨Nat.succ_ne_zero _, by omega, by decide, by omega⟩
        refine .inr ⟨0, [], ⟨Holding.nil hsized rfl, ?_, rfl, trivial⟩, ?_, rfl, rfl⟩
        · rw [Nat.zero_mod, Nat.mul_zero]
          rfl
        · change 2 ^ (min (logcount + 1) 16 - 1) = 2 ^ logcount
          rw [Nat.min_eq_left (by omega), Nat.add_sub_cancel]
    | false =>
        -- without memory only the size of one sample is no error
        have hzero : logcount = 0 := by
          by_contra hne
          simp [bufSet, BUF_SIZE_NONE, hne] at hok
        exact .inl ⟨by rw [hzero]; rfl, rfl, rfl⟩

theorem adcSetupChannel_status (d : Dev n) (id : Fin n) (logcount : Nat) (allocated : Bool) :
    (adcSetupChannel d id logcount allocated).2 =
      (setupBuffer (d.ch id).desc logcount allocated).2 := by
  unfold adcSetupChannel
  dsimp only
  split <;> rfl

theorem toNat_toUInt16_two_pow {k : Nat} (hle : k ≤ 15) : (2 ^ k).toUInt16.toNat = 2 ^ k := by
  change 2 ^ k % 2 ^ 16 = 2 ^ k
  exact Nat.mod_eq_of_lt (Nat.pow_lt_pow_right (by decide) (by omega))

/-- A request that is accepted. -/
theorem serving_setup (h : Regular id s) (hmain : s.main = .idle)
    {logcount : Nat} {allocated : Bool}
    (hok : (adcSetupChannel s.dev id logcount allocated).2 = .PLATFORM_OK)
    (hsmooth : (s.dev.ch id).logsmoothlen = 0) (hfree : (s.dev.ch id).flags.freerunning = false)
    (hle : logcount ≤ 15)
    (hempty : bufGetSize (s.dev.ch id).desc = 2 ^ logcount → bufGetCount (s.dev.ch id).desc = 0) :
    Serving id (view id { s with dev := (adcSetupChannel s.dev id logcount allocated).1 })
      ⟨2 ^ logcount, [], []⟩ [] := by
  obtain ⟨d, main⟩ := s
  dsimp only at hmain hok hsmooth hfree hempty ⊢
  subst hmain
  rw [adcSetupChannel_status] at hok
  have halign := h.aligned
  rw [readerOf_idle rfl] at halign
  have hbuffered := buffered_setupBuffer halign hle hok hempty
  have hpos : 0 < 2 ^ logcount := Nat.pow_pos (by decide)
  have hch : (adcSetupChannel d id logcount allocated).1.ch id =
      { d.ch id with
        desc := (setupBuffer (d.ch id).desc logcount allocated).1
        reqsamples := (2 ^ logcount).toUInt16
        flags := { (d.ch id).flags with opPending := true } } := by
    unfold adcSetupChannel
    simp [hok, Dev.set]
  have hactive : (adcSetupChannel d id logcount allocated).1.chActive id = true := by
    unfold adcSetupChannel
    simp [hok]
  have hnot : ∀ c, ¬ Fresh c (⟨2 ^ logcount, [], []⟩ : Request) := fun c hfresh => hfresh.1 rfl
  refine ⟨?_, ?_, ?_, hpos, iff_of_true hactive hpos, fun _ => hactive, Nat.zero_le _, ?_,
    fun hfresh => absurd hfresh (hnot _), ?_, fun hch => by cases hch⟩
  · exact (congrArg Channel.logsmoothlen hch).trans hsmooth
  · exact (congrArg (fun c => c.flags.freerunning) hch).trans hfree
  · change ((adcSetupChannel d id logcount allocated).1.ch id).reqsamples.toNat + 0 = 2 ^ logcount
    rw [hch]
    exact toNat_toUInt16_two_pow hle
  · rw [freshSample_eq_nil (hnot _)]
    rfl
  · change Buffered ((adcSetupChannel d id logcount allocated).1.ch id).desc _ _ _
    rw [hch]
    exact hbuffered

/-! ## Runs -/

/-- What holds along a run: the request, if there is one, is being served. -/
structure Served (id : Fin n) (s : Sys n × Option Request) : Prop where
  regular : Regular id s.1
  serving : ∀ q ∈ s.2, ∃ waiting, Serving id (view id s.1) q waiting

/-- A call about another channel, or one that the request does not depend on. -/
theorem Serving.call (h : Serving id (view id s) q waiting) {d : Dev n}
    (hch : Unaffected (s.dev.chActive id) (s.dev.ch id) (d.ch id))
    (hptr : (d.ch id).valuePtr = (s.dev.ch id).valuePtr)
    (hactive : d.chActive id = s.dev.chActive id)
    (hseq : d.chState = s.dev.chState) (hbuf : d.sampleBuf = s.dev.sampleBuf)
    (hrunning : d.running = true → s.dev.running = true) :
    Serving id (view id { s with dev := d }) q waiting := by
  refine h.congr hch hactive ?_ ?_ rfl rfl rfl h.found
  · intro hsampled
    simp only [view, Bool.and_eq_true, decide_eq_true_eq, hactive] at hsampled ⊢
    refine h.sampled ?_
    simp only [view, Bool.and_eq_true, decide_eq_true_eq]
    exact ⟨hrunning hsampled.1, hseq ▸ hsampled.2⟩
  · intro _ _ _
    simp only [view, hbuf, hptr]

/-- Starting the sequence. -/
theorem Serving.start (h : Serving id (view id s) q waiting) (hseq : Sequenced s.dev) :
    Serving id (view id { s with dev := platformAdcStartSequence s.dev }) q waiting := by
  rw [platformAdcStartSequence]
  split
  · exact h
  · have hupdated := adcUpdateDevSequence_ch s.dev id
    have hact : (adcUpdateDevSequence s.dev).chActive id = s.dev.chActive id :=
      congrFun (adcUpdateDevSequence_chActive s.dev) id
    refine h.congr hupdated.unaffected hact ?_ ?_ rfl rfl rfl h.found
    · intro hsampled
      simp only [view, Bool.true_and, decide_eq_true_eq] at hsampled ⊢
      rw [hact]
      exact (mem_adcUpdateDevSequence hseq).mp hsampled
    · intro _ _ hmark
      rcases hupdated with hsame | ⟨-, p, hsame⟩
      · simp only [view, adcUpdateDevSequence_sampleBuf, hsame]
      · change ((adcUpdateDevSequence s.dev).ch id).flags.valueFresh = true at hmark
        rw [hsame] at hmark
        cases hmark

/-- A call that gives a channel other flags. -/
theorem Serving.setFlags (h : Serving id (view id s) q waiting) (j : Fin n) {flags : Flags}
    (hfree : j = id → flags.freerunning = (s.dev.ch id).flags.freerunning)
    (hfresh : j = id → flags.valueFresh = (s.dev.ch id).flags.valueFresh) :
    Serving id (view id { s with dev := s.dev.set j { s.dev.ch j with flags := flags } }) q
      waiting := by
  by_cases hj : j = id
  · subst hj
    refine h.call ?_ ?_ rfl rfl rfl (fun hr => hr)
    · rw [Dev.set_ch_self]
      exact ⟨rfl, hfree rfl, rfl, rfl, .inl (hfresh rfl)⟩
    · rw [Dev.set_ch_self]
  · refine h.call ?_ ?_ rfl rfl rfl (fun hr => hr)
    · rw [Dev.set_ch_of_ne s.dev (Ne.symm hj)]
      exact Unaffected.refl _ _
    · rw [Dev.set_ch_of_ne s.dev (Ne.symm hj)]

/-- A call that starts when the main program is idle. -/
theorem Serving.enter (h : Serving id (view id s) q waiting) (hmain : s.main = .idle)
    (main : Main n)
    (hquiet : Quiet main) (hfound : Found (s.dev.ch id) q waiting main) :
    Serving id (view id { s with main := main }) q waiting := by
  have hidle : Quiet (view id s).main := by
    rw [show (view id s).main = .idle from hmain]
    exact ⟨rfl, rfl, rfl⟩
  exact h.quiet hidle hquiet fun _ => hfound

/-- Every step that comes in time keeps the request served. -/
theorem Served.step {s s' : Sys n × Option Request} {a : Action n} (h : Served id s)
    (hok : Timely id s a) (hstep : recordedStep id s a = some s') : Served id s' := by
  obtain ⟨s₁, hs₁, rfl⟩ := Option.map_eq_some_iff.mp hstep
  obtain ⟨s, q₀⟩ := s
  obtain ⟨hregular, hserving⟩ := h
  refine ⟨hregular.step hs₁, ?_⟩
  dsimp only at hregular hserving hs₁ ⊢
  cases a with
  | setup j logcount allocated =>
      simp only [Adc.step, call_eq_some] at hs₁
      obtain ⟨hmain, rfl⟩ := hs₁
      by_cases hj : j = id
      · subst hj
        obtain ⟨hle, hempty⟩ := hok rfl
        intro q hq
        simp only [record, if_true] at hq
        split at hq
        · rename_i haccepted
          obtain rfl := Option.some.inj hq
          obtain ⟨hstatus, hsmooth, hfree⟩ := haccepted
          exact ⟨[], serving_setup hregular hmain hstatus hsmooth hfree hle hempty⟩
        · cases hq
      · intro q hq
        rw [record, if_neg hj] at hq
        obtain ⟨waiting, h⟩ := hserving q hq
        obtain ⟨hch, hactive, hbuf, hrunning⟩ :=
          adcSetupChannel_of_ne s.dev (Ne.symm hj) logcount allocated
        refine ⟨waiting, h.call ?_ (by rw [hch]) hactive
          (sameSequence_adcSetupChannel s.dev j logcount allocated).chState hbuf (hrunning ▸ ·)⟩
        rw [hch]
        exact Unaffected.refl _ _
  | start =>
      simp only [Adc.step, call_eq_some] at hs₁
      obtain ⟨-, rfl⟩ := hs₁
      intro q hq
      obtain ⟨waiting, h⟩ := hserving q hq
      exact ⟨waiting, h.start hregular.sequenced⟩
  | smoothing j loglen allocated =>
      simp only [Adc.step, call_eq_some] at hs₁
      obtain ⟨hmain, rfl⟩ := hs₁
      intro q hq
      by_cases hj : j = id
      · rw [record, if_pos hj] at hq
        cases hq
      · rw [record, if_neg hj] at hq
        obtain ⟨waiting, h⟩ := hserving q hq
        obtain ⟨hch, hactive, hbuf, hrunning⟩ :=
          adcUpdateSmoothing_of_ne s.dev (Ne.symm hj) loglen allocated
        refine ⟨waiting, h.call ?_ (by rw [hch]) hactive
          (sameSequence_adcUpdateSmoothing s.dev j loglen allocated).chState hbuf hrunning⟩
        rw [hch]
        exact Unaffected.refl _ _
  | blocking j mode =>
      simp only [Adc.step, call_eq_some] at hs₁
      obtain ⟨-, rfl⟩ := hs₁
      intro q hq
      obtain ⟨waiting, h⟩ := hserving q hq
      exact ⟨waiting, h.setFlags j (fun hj => by rw [hj]) (fun hj => by rw [hj])⟩
  | freerunning j mode =>
      simp only [Adc.step, call_eq_some] at hs₁
      obtain ⟨-, rfl⟩ := hs₁
      intro q hq
      rw [record] at hq
      split at hq
      · cases hq
      · rename_i hnot
        obtain ⟨waiting, h⟩ := hserving q hq
        refine ⟨waiting, h.setFlags j ?_ (fun hj => by rw [hj])⟩
        intro hj
        cases mode with
        | false => exact h.freerunning.symm
        | true => exact absurd ⟨hj, rfl⟩ hnot
  | getProcessedSample j =>
      simp only [Adc.step, Option.map_eq_some_iff, call_eq_some] at hs₁
      obtain ⟨s₂, ⟨hmain, rfl⟩, rfl⟩ := hs₁
      intro q hq
      obtain ⟨waiting, h⟩ := hserving q hq
      exact ⟨waiting, h.enter hmain (.getCount j) ⟨rfl, rfl, rfl⟩ trivial⟩
  | waitSamples j samples =>
      simp only [Adc.step, Option.map_eq_some_iff, call_eq_some] at hs₁
      obtain ⟨s₂, ⟨hmain, rfl⟩, rfl⟩ := hs₁
      intro q hq
      obtain ⟨waiting, h⟩ := hserving q hq
      exact ⟨waiting, h.enter hmain (.waitCount j samples .first) ⟨rfl, rfl, rfl⟩ trivial⟩
  | main =>
      obtain rfl := Option.some.inj hs₁
      intro q hq
      obtain ⟨q₁, hq₁, rfl⟩ := Option.map_eq_some_iff.mp hq
      obtain ⟨waiting, h⟩ := hserving q₁ hq₁
      by_cases hch : s.main.channel = some id
      · exact h.main_self hch fun hlooking => hok hch hlooking q₁ hq₁
      · obtain ⟨hreturned, h'⟩ := h.main_other hch
        rw [hreturned, List.append_nil]
        exact ⟨waiting, h'⟩
  | interrupt conversions =>
      obtain rfl := Option.some.inj hs₁
      intro q hq
      obtain ⟨q₁, hq₁, rfl⟩ := Option.map_eq_some_iff.mp hq
      obtain ⟨waiting, h⟩ := hserving q₁ hq₁
      obtain ⟨hlate, hlast, hplace⟩ := hok q₁ hq₁
      by_cases hid : id ∈ s.dev.chState
      · have hactive : s.dev.chActive id = true := by
          cases hrunning : s.dev.running with
          | false => exact hlate hid hrunning
          | true => exact h.sampled (by simp [view, hrunning, hid])
        rw [if_pos hid]
        exact h.interrupt_of_mem hregular.sequenced hactive hid (hlast hid) conversions
      · rw [if_neg hid]
        exact ⟨waiting, h.interrupt_of_notMem hregular.sequenced hid conversions hplace⟩

/-- What a served request has returned. -/
theorem Serving.acquired (h : Serving id (view id s) q waiting) :
    q.values.take q.samples <+: q.conversions ∧
      (q.samples ≤ q.values.length →
        bufGetCount (s.dev.ch id).desc = 0 ∧ (s.dev.ch id).flags.valueFresh = false) := by
  have hconv := h.conversions
  have hlen := h.length_eq
  have henough := h.enough
  have hsamples := h.samples
  refine ⟨?_, fun hall => ?_⟩
  · rw [hconv, List.append_assoc, List.append_assoc]
    exact (List.take_prefix _ _).trans (List.prefix_append _ _)
  · have hwaiting : waiting.length = 0 := by omega
    refine ⟨h.buffered.count.trans hwaiting, ?_⟩
    cases hmark : (s.dev.ch id).flags.valueFresh with
    | false => rfl
    | true =>
        have hne : q.conversions ≠ [] := by
          intro hnil
          rw [hnil, List.length_nil] at hlen
          omega
        have hlast := (h.fresh ⟨hne, hmark⟩).1
        omega

/-- **In the order of the conversions.**  Along a run in which the interrupts come in time, the
first values that are returned are the first conversions since the request, and after them no
sample of it is left. -/
theorem acquired_of_timely (id : Fin n) (adcBufSize : Nat) (allocated : Fin n → Bool)
    (m : Fin n → Mem) {actions : List (Action n)} {s : Sys n × Option Request}
    (hok : Transition.Conforming (recordedStep id) (Timely id) (recordedInit adcBufSize allocated m)
      actions)
    (hrun : Transition.run (recordedStep id) (recordedInit adcBufSize allocated m) actions =
      some s) :
    Acquired id s := by
  have hinit : Served id (recordedInit adcBufSize allocated m) :=
    ⟨regular_init id adcBufSize allocated m, fun q hq => by cases hq⟩
  have hserved : Served id s :=
    Transition.invariant_of_run (fun _ _ _ h hok hstep => h.step hok hstep) hinit hok hrun
  intro q hq
  obtain ⟨waiting, h⟩ := hserved.serving q hq
  exact h.acquired

/-- A request for two samples; an interrupt brings the second before the first is read. -/
def twoSamples : List (Action 4) :=
  [.setup 0 1 true, .start, .interrupt fun _ => 10, .getProcessedSample 0] ++
    List.replicate 4 .main ++ [.interrupt fun _ => 20] ++ List.replicate 6 .main ++
    [.getProcessedSample 0] ++ List.replicate 10 .main

theorem acquired_two_samples :
    ∃ s, Transition.run (recordedStep 0) (recordedInit 1 (fun _ => true) fun _ => ⟨fun _ => 0⟩)
        twoSamples = some s ∧
      Acquired 0 s ∧ s.2 = some ⟨2, [10, 20], [10, 20]⟩ :=
  ⟨_, rfl, @acquired_of_timely 4 0 1 (fun _ => true) (fun _ => ⟨fun _ => 0⟩) twoSamples _
    (by decide +kernel) rfl, rfl⟩

/-- **The store that comes late.**  The second of two conversions comes between the decrement of
the count and the store of `reqsamples`.  The channel is not stopped, and the third conversion
is returned in the place of the second. -/
theorem not_acquired_late_store :
    ∃ s, Transition.run (recordedStep (0 : Fin 4))
      (recordedInit 1 (fun _ => true) fun _ => ⟨fun _ => 0⟩)
        ([.setup 0 1 true, .start, .interrupt fun _ => 10, .getProcessedSample 0] ++
          List.replicate 6 .main ++ [.interrupt fun _ => 20] ++ List.replicate 4 .main ++
          [.interrupt fun _ => 30, .getProcessedSample 0] ++ List.replicate 8 .main) = some s ∧
      s.2 = some ⟨2, [10, 20, 30], [10, 30]⟩ ∧ ¬ Acquired 0 s := by
  refine ⟨_, rfl, rfl, fun h => ?_⟩
  exact absurd (h _ rfl).1 (by decide)

end Adc
