import EluaWebServer.Adc.Sequence

/-!
# What a step leaves as it is

A step of the main program is about the channel of its call, and a call that sets up a
channel is about this one: the other channels stay as they are, and all of them keep
their places in the sequence.
-/

namespace Adc

open Charbuf Charbuf.System

variable {n : Nat} {s s' : Sys n} {id j : Fin n}

/-! ## Where the main program reads -/

/-- The channel of the call that the main program is in. -/
def Main.channel : Main n → Option (Fin n)
  | .idle => none
  | .getCount id | .getFresh id | .smooth id | .testFresh id | .loadValue id | .loadFlags id _
  | .storeFlags id _ _ | .bufRead id _ | .testReq id _ | .loadReq id _ | .storeReq id _ _
  | .waitCount id _ _ | .waitFresh id _ _ | .waitBlocking id _ | .waitPending id _ => some id

/-- Where the main program is in `buf_read`. -/
def Main.reader : Main n → Reader
  | .bufRead _ reader => reader
  | _ => .idle

/-- Where the main program is in `buf_read` for a channel. -/
def readerOf (id : Fin n) (main : Main n) : Reader :=
  if main.channel = some id then main.reader else .idle

theorem readerOf_self {main : Main n} (h : main.channel = some id) :
    readerOf id main = main.reader :=
  if_pos h

theorem readerOf_other {main : Main n} (h : main.channel ≠ some id) : readerOf id main = .idle :=
  if_neg h

theorem channel_afterAvailable (s : Channel) (id : Fin n) (available : Nat) :
    (afterAvailable s id available).channel = some id ∨ afterAvailable s id available = .idle := by
  unfold afterAvailable
  split
  · split
    · split
      · exact .inl rfl
      · exact .inr rfl
    · exact .inl rfl
  · exact .inr rfl

theorem channel_afterWait (id : Fin n) (samples available : Nat) (stage : Stage) :
    (afterWait id samples available stage).channel = some id ∨
      afterWait id samples available stage = .idle := by
  unfold afterWait
  cases stage with
  | first => exact .inl (by dsimp only; split <;> rfl)
  | loop => exact .inl (by dsimp only; split <;> rfl)
  | last => exact .inr rfl

theorem channel_afterBufRead (id : Fin n) (reader reader' : Reader) :
    (afterBufRead id reader reader').channel = some id := by
  unfold afterBufRead
  split <;> rfl

theorem readerOf_idle {main : Main n} (h : main.reader = .idle) : readerOf id main = .idle := by
  unfold readerOf
  split
  · exact h
  · rfl

theorem reader_afterAvailable (s : Channel) (id : Fin n) (available : Nat) :
    (afterAvailable s id available).reader = .idle := by
  unfold afterAvailable
  split
  · split
    · split <;> rfl
    · rfl
  · rfl

theorem reader_afterWait (id : Fin n) (samples available : Nat) (stage : Stage) :
    (afterWait id samples available stage).reader = .idle := by
  unfold afterWait
  split
  · split <;> rfl
  · split <;> rfl
  · rfl

theorem reader_afterBufRead (id : Fin n) (p : BufDesc) (reader : Reader) :
    (afterBufRead id reader (bufReadStep p reader).2).reader = (bufReadStep p reader).2 := by
  cases reader with
  | entered a =>
      by_cases hempty : readEmpty p = true
      · have hstep : bufReadStep p (.entered a) = (p, .idle) := by
          simp only [bufReadStep, System.readStep, if_pos hempty]
        rw [hstep]
        rfl
      · have hstep : bufReadStep p (.entered a) = (p, .tested a) := by
          simp only [bufReadStep, System.readStep, if_neg hempty]
        rw [hstep]
        rfl
  | idle | tested a | copied bs | decremented bs => rfl

theorem mainStep_getCount (d : Dev n) (id : Fin n) :
    mainStep ⟨d, .getCount id⟩ = ⟨d, if bufGetCount (d.ch id).desc = 0 then .getFresh id
      else afterAvailable (d.ch id) id (bufGetCount (d.ch id).desc)⟩ := by
  simp only [mainStep]
  split <;> rfl

theorem mainStep_waitCount (d : Dev n) (id : Fin n) (samples : Nat) (stage : Stage) :
    mainStep ⟨d, .waitCount id samples stage⟩ =
      ⟨d, if bufGetCount (d.ch id).desc = 0 then .waitFresh id samples stage
        else afterWait id samples (bufGetCount (d.ch id).desc) stage⟩ := by
  simp only [mainStep]
  split <;> rfl

/-- A step of the main program is about the channel of its call, which keeps its place. -/
theorem mainStep_cases (s : Sys n) :
    s.main = .idle ∧ mainStep s = s ∨
      ∃ j c main', s.main.channel = some j ∧ mainStep s = ⟨s.dev.set j c, main'⟩ ∧
        c.valuePtr = (s.dev.ch j).valuePtr ∧ (main'.channel = some j ∨ main' = .idle) := by
  obtain ⟨d, main⟩ := s
  -- a step that leaves the device as it is
  have hkeep : ∀ (j : Fin n) (main' : Main n), main.channel = some j →
      (main'.channel = some j ∨ main' = .idle) → mainStep ⟨d, main⟩ = ⟨d, main'⟩ →
      ∃ j c main', main.channel = some j ∧ mainStep ⟨d, main⟩ = ⟨d.set j c, main'⟩ ∧
        c.valuePtr = (d.ch j).valuePtr ∧ (main'.channel = some j ∨ main' = .idle) := by
    intro j main' hj hmain hstep
    have hset : d.set j (d.ch j) = d := by
      simp only [Dev.set, Function.update_eq_self]
    exact ⟨j, d.ch j, main', hj, by rw [hstep, hset], rfl, hmain⟩
  cases main with
  | idle => exact .inl ⟨rfl, rfl⟩
  | getCount j =>
      refine .inr (hkeep j _ rfl ?_ (mainStep_getCount d j))
      split
      · exact .inl rfl
      · exact channel_afterAvailable _ j _
  | getFresh j => exact .inr (hkeep j _ rfl (channel_afterAvailable _ j _) rfl)
  | smooth j => exact .inr ⟨j, _, _, rfl, rfl, valuePtr_adcSmoothData _ _, .inl rfl⟩
  | testFresh j =>
      refine .inr (hkeep j _ rfl (.inl ?_) rfl)
      dsimp only
      split <;> rfl
  | loadValue j => exact .inr (hkeep j _ rfl (.inl rfl) rfl)
  | loadFlags j sample => exact .inr (hkeep j _ rfl (.inl rfl) rfl)
  | storeFlags j sample flags => exact .inr ⟨j, _, _, rfl, rfl, rfl, .inl rfl⟩
  | bufRead j reader => exact .inr ⟨j, _, _, rfl, rfl, rfl, .inl (channel_afterBufRead j _ _)⟩
  | testReq j sample =>
      refine .inr (hkeep j _ rfl ?_ rfl)
      dsimp only
      split
      · exact .inl rfl
      · exact .inr rfl
  | loadReq j sample => exact .inr (hkeep j _ rfl (.inl rfl) rfl)
  | storeReq j sample reqsamples => exact .inr ⟨j, _, _, rfl, rfl, rfl, .inr rfl⟩
  | waitCount j samples stage =>
      refine .inr (hkeep j _ rfl ?_ (mainStep_waitCount d j samples stage))
      split
      · exact .inl rfl
      · exact channel_afterWait j _ _ _
  | waitFresh j samples stage => exact .inr (hkeep j _ rfl (channel_afterWait j _ _ _) rfl)
  | waitBlocking j samples =>
      refine .inr (hkeep j _ rfl (.inl ?_) rfl)
      dsimp only
      split <;> rfl
  | waitPending j samples =>
      refine .inr (hkeep j _ rfl (.inl ?_) rfl)
      dsimp only
      split <;> rfl

/-- A step about another channel. -/
theorem mainStep_other {s : Sys n} (h : s.main.channel ≠ some id) :
    (mainStep s).main.channel ≠ some id ∧ (mainStep s).dev.ch id = s.dev.ch id := by
  rcases mainStep_cases s with ⟨-, hsame⟩ | ⟨j, c, main', hj, hstep, -, hmain⟩
  · rw [hsame]
    exact ⟨h, rfl⟩
  · have hne : id ≠ j := by
      intro heq
      exact h (heq ▸ hj)
    rw [hstep]
    refine ⟨?_, Dev.set_ch_of_ne s.dev hne c⟩
    rcases hmain with hmain | rfl
    · rw [hmain]
      intro heq
      exact hne (Option.some.inj heq).symm
    · intro heq
      cases heq

/-- A step of the main program leaves what is not in a channel. -/
theorem mainStep_dev (s : Sys n) :
    SameSequence s.dev (mainStep s).dev ∧ (mainStep s).dev.chActive = s.dev.chActive ∧
      (mainStep s).dev.running = s.dev.running ∧ (mainStep s).dev.sampleBuf = s.dev.sampleBuf := by
  rcases mainStep_cases s with ⟨-, hsame⟩ | ⟨j, c, main', -, hstep, hptr, -⟩
  · rw [hsame]
    exact ⟨SameSequence.refl s.dev, rfl, rfl, rfl⟩
  · rw [hstep]
    exact ⟨sameSequence_set s.dev j hptr, rfl, rfl, rfl⟩

/-! ## The calls -/

/-- The channel that is set up. -/
theorem desc_adcSetupChannel (d : Dev n) (id : Fin n) (logcount : Nat) (allocated : Bool) :
    ((adcSetupChannel d id logcount allocated).1.ch id).desc =
      (setupBuffer (d.ch id).desc logcount allocated).1 := by
  unfold adcSetupChannel
  dsimp only
  split
  · simp [Dev.set]
  · simp [Dev.set]

/-- The other channels. -/
theorem adcSetupChannel_of_ne (d : Dev n) (hne : id ≠ j) (logcount : Nat) (allocated : Bool) :
    (adcSetupChannel d j logcount allocated).1.ch id = d.ch id ∧
      (adcSetupChannel d j logcount allocated).1.chActive id = d.chActive id ∧
      (adcSetupChannel d j logcount allocated).1.sampleBuf = d.sampleBuf ∧
      (adcSetupChannel d j logcount allocated).1.running = d.running := by
  unfold adcSetupChannel
  dsimp only
  split
  · exact ⟨Dev.set_ch_of_ne d hne _, Function.update_of_ne hne _ _, rfl, rfl⟩
  · exact ⟨Dev.set_ch_of_ne d hne _, rfl, rfl, rfl⟩

theorem sameSequence_adcSetupChannel (d : Dev n) (id : Fin n) (logcount : Nat) (allocated : Bool) :
    SameSequence d (adcSetupChannel d id logcount allocated).1 := by
  unfold adcSetupChannel
  dsimp only
  split
  · have hset := sameSequence_set d id
      (s := { d.ch id with
        desc := (setupBuffer (d.ch id).desc logcount allocated).1
        reqsamples := (2 ^ logcount).toUInt16
        flags := { (d.ch id).flags with opPending := true } }) rfl
    exact ⟨hset.chState, hset.lastChActive, hset.valuePtr⟩
  · exact sameSequence_set d id rfl

theorem desc_adcFlushSmoothing (c : Channel) : (adcFlushSmoothing c).desc = c.desc := by
  unfold adcFlushSmoothing
  dsimp only
  split <;> rfl

theorem valuePtr_adcFlushSmoothing (c : Channel) : (adcFlushSmoothing c).valuePtr = c.valuePtr := by
  unfold adcFlushSmoothing
  dsimp only
  split <;> rfl

/-- `adc_update_smoothing` changes its channel only, after stopping it or not. -/
theorem adcUpdateSmoothing_eq (d : Dev n) (id : Fin n) (loglen : Nat) (allocated : Bool) :
    ∃ d' c, (d' = d ∨ d' = platformAdcStop d id) ∧
      adcUpdateSmoothing d id loglen allocated = d'.set id c ∧
      c.valuePtr = (d'.ch id).valuePtr ∧
      (c.desc = (d'.ch id).desc ∨ c.desc = bufFlush (d'.ch id).desc) := by
  unfold adcUpdateSmoothing
  dsimp only
  have hstop : (if (d.ch id).flags.opPending = true then platformAdcStop d id else d) = d ∨
      (if (d.ch id).flags.opPending = true then platformAdcStop d id else d) =
        platformAdcStop d id := by
    split
    · exact .inr rfl
    · exact .inl rfl
  generalize (if (d.ch id).flags.opPending = true then platformAdcStop d id else d) = d' at hstop ⊢
  split
  · split
    · exact ⟨_, _, hstop, rfl, rfl, .inl rfl⟩
    · refine ⟨_, _, hstop, rfl, ?_, .inr rfl⟩
      exact valuePtr_adcFlushSmoothing _
  · refine ⟨_, _, hstop, rfl, ?_, .inr ?_⟩
    · exact valuePtr_adcFlushSmoothing _
    · exact congrArg bufFlush (desc_adcFlushSmoothing _)

theorem sameSequence_adcUpdateSmoothing (d : Dev n) (id : Fin n) (loglen : Nat) (allocated : Bool) :
    SameSequence d (adcUpdateSmoothing d id loglen allocated) := by
  obtain ⟨d', c, hd', heq, hptr, -⟩ := adcUpdateSmoothing_eq d id loglen allocated
  rw [heq]
  rcases hd' with rfl | rfl
  · exact sameSequence_set _ id hptr
  · exact (sameSequence_platformAdcStop d id).trans (sameSequence_set _ id hptr)

/-- The other channels. -/
theorem adcUpdateSmoothing_of_ne (d : Dev n) (hne : id ≠ j) (loglen : Nat) (allocated : Bool) :
    (adcUpdateSmoothing d j loglen allocated).ch id = d.ch id ∧
      (adcUpdateSmoothing d j loglen allocated).chActive id = d.chActive id ∧
      (adcUpdateSmoothing d j loglen allocated).sampleBuf = d.sampleBuf ∧
      ((adcUpdateSmoothing d j loglen allocated).running = true → d.running = true) := by
  obtain ⟨d', c, hd', heq, -, -⟩ := adcUpdateSmoothing_eq d j loglen allocated
  rw [heq, Dev.set_ch_of_ne d' hne, Dev.set_chActive, Dev.set_sampleBuf]
  rcases hd' with rfl | rfl
  · exact ⟨rfl, rfl, rfl, fun h => h⟩
  · rw [platformAdcStop_ch, platformAdcStop_chActive, platformAdcStop_sampleBuf,
      Dev.set_ch_of_ne d hne, Function.update_of_ne hne]
    exact ⟨rfl, rfl, rfl, running_of_platformAdcStop⟩

theorem call_eq_some {f : Dev n → Dev n} :
    call s f = some s' ↔ s.main = .idle ∧ s' = { s with dev := f s.dev } := by
  obtain ⟨d, main⟩ := s
  cases main with
  | idle => simp [call, eq_comm]
  | _ => simp [call]

end Adc
