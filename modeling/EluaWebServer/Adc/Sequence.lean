import EluaWebServer.Adc.Calls

/-!
# The sequence of the device

Between two updates of the sequence the channels keep their places in it, so that an
interrupt handles each of them on its own.  What one interrupt does to a channel is
what one conversion does to it, followed by the update.
-/

namespace Adc

open Charbuf Memory

variable {n : Nat} {d d' : Dev n} {id j : Fin n}

@[simp] theorem Dev.set_ch_self (d : Dev n) (id : Fin n) (s : Channel) :
    (d.set id s).ch id = s := by
  simp [Dev.set]

@[simp] theorem Dev.set_ch_of_ne (d : Dev n) (hne : id ≠ j) (s : Channel) :
    (d.set j s).ch id = d.ch id := by
  simp [Dev.set, hne]

@[simp] theorem Dev.set_chActive (d : Dev n) (id : Fin n) (s : Channel) :
    (d.set id s).chActive = d.chActive := rfl

@[simp] theorem Dev.set_sampleBuf (d : Dev n) (id : Fin n) (s : Channel) :
    (d.set id s).sampleBuf = d.sampleBuf := rfl

namespace Channel

variable (s : Channel) (fresh : Bool)

@[simp] theorem setFresh_logsmoothlen : (s.setFresh fresh).logsmoothlen = s.logsmoothlen := rfl

@[simp] theorem setFresh_reqsamples : (s.setFresh fresh).reqsamples = s.reqsamples := rfl

@[simp] theorem setFresh_desc : (s.setFresh fresh).desc = s.desc := rfl

@[simp] theorem setFresh_freerunning :
    (s.setFresh fresh).flags.freerunning = s.flags.freerunning := rfl

end Channel

/-! ## Places in the sequence -/

/-- The sequence has the channels that were active when it was last updated, and each of
them knows its place. -/
structure Sequenced (d : Dev n) : Prop where
  chState : d.chState = (List.finRange n).filter (d.lastChActive ·)
  valuePtr : ∀ id, d.lastChActive id = true → (d.ch id).valuePtr = d.chState.idxOf id

/-- The places in the sequence are the same. -/
structure SameSequence (d d' : Dev n) : Prop where
  chState : d'.chState = d.chState
  lastChActive : d'.lastChActive = d.lastChActive
  valuePtr : ∀ id, (d'.ch id).valuePtr = (d.ch id).valuePtr

theorem SameSequence.refl (d : Dev n) : SameSequence d d := ⟨rfl, rfl, fun _ => rfl⟩

theorem SameSequence.trans {d₁ d₂ d₃ : Dev n} (h : SameSequence d₁ d₂) (h' : SameSequence d₂ d₃) :
    SameSequence d₁ d₃ :=
  ⟨h'.chState.trans h.chState, h'.lastChActive.trans h.lastChActive,
    fun id => (h'.valuePtr id).trans (h.valuePtr id)⟩

theorem Sequenced.congr (h : Sequenced d) (hsame : SameSequence d d') : Sequenced d' := by
  refine ⟨?_, ?_⟩
  · rw [hsame.chState, hsame.lastChActive, h.chState]
  · intro id hlast
    rw [hsame.lastChActive] at hlast
    rw [hsame.chState, hsame.valuePtr, h.valuePtr id hlast]

theorem Sequenced.nodup (h : Sequenced d) : d.chState.Nodup := by
  rw [h.chState]
  exact (List.nodup_finRange n).filter _

theorem Sequenced.mem_iff (h : Sequenced d) : id ∈ d.chState ↔ d.lastChActive id = true := by
  rw [h.chState, List.mem_filter]
  exact ⟨And.right, fun hlast => ⟨List.mem_finRange id, hlast⟩⟩

theorem sequenced_init (adcBufSize : Nat) (allocated : Fin n → Bool) (m : Fin n → Mem) :
    Sequenced (adcsInit adcBufSize allocated m) := by
  refine ⟨?_, ?_⟩
  · exact (List.filter_eq_nil_iff.mpr fun _ _ => by simp [adcsInit]).symm
  · intro id hlast
    cases hlast

/-- A channel that is changed but for its place. -/
theorem sameSequence_set (d : Dev n) (id : Fin n) {s : Channel}
    (hptr : s.valuePtr = (d.ch id).valuePtr) : SameSequence d (d.set id s) := by
  refine ⟨rfl, rfl, ?_⟩
  intro i
  by_cases hi : i = id
  · subst hi
    rw [Dev.set_ch_self, hptr]
  · rw [Dev.set_ch_of_ne d hi]

/-! ## Stopping a channel -/

@[simp] theorem platformAdcStop_ch (d : Dev n) (id : Fin n) :
    (platformAdcStop d id).ch =
      (d.set id { d.ch id with flags := { (d.ch id).flags with opPending := false } }).ch := by
  unfold platformAdcStop
  dsimp only
  split <;> rfl

@[simp] theorem platformAdcStop_chActive (d : Dev n) (id : Fin n) :
    (platformAdcStop d id).chActive = Function.update d.chActive id false := by
  unfold platformAdcStop
  dsimp only
  split <;> rfl

@[simp] theorem platformAdcStop_chState (d : Dev n) (id : Fin n) :
    (platformAdcStop d id).chState = d.chState := by
  unfold platformAdcStop
  dsimp only
  split <;> rfl

@[simp] theorem platformAdcStop_lastChActive (d : Dev n) (id : Fin n) :
    (platformAdcStop d id).lastChActive = d.lastChActive := by
  unfold platformAdcStop
  dsimp only
  split <;> rfl

@[simp] theorem platformAdcStop_sampleBuf (d : Dev n) (id : Fin n) :
    (platformAdcStop d id).sampleBuf = d.sampleBuf := by
  unfold platformAdcStop
  dsimp only
  split <;> rfl

theorem running_of_platformAdcStop (h : (platformAdcStop d id).running = true) :
    d.running = true := by
  unfold platformAdcStop at h
  dsimp only at h
  split at h
  · cases h
  · exact h

theorem sameSequence_platformAdcStop (d : Dev n) (id : Fin n) :
    SameSequence d (platformAdcStop d id) := by
  refine ⟨platformAdcStop_chState d id, platformAdcStop_lastChActive d id, ?_⟩
  intro i
  rw [platformAdcStop_ch]
  refine (sameSequence_set d id ?_).valuePtr i
  rfl

/-! ## One conversion of a channel -/

/-- What a conversion does to its channel. -/
def Channel.converted (v : UInt16) (s : Channel) : Channel :=
  takeSample (fun _ => v) (s.setFresh true)

/-- The channel has the number of requested samples. -/
def Channel.Complete (s : Channel) : Prop :=
  s.reqsamples.toNat ≤ adcSamplesAvailable s ∧ s.flags.freerunning = false

instance (s : Channel) : Decidable s.Complete :=
  inferInstanceAs
    (Decidable (s.reqsamples.toNat ≤ adcSamplesAvailable s ∧ s.flags.freerunning = false))

/-- The channel after `platform_adc_stop`. -/
def Channel.stopped (s : Channel) : Channel :=
  { s with flags := { s.flags with opPending := false } }

@[simp] theorem valuePtr_adcSmoothData (buf : Nat → UInt16) (s : Channel) :
    (adcSmoothData buf s).valuePtr = s.valuePtr := by
  unfold adcSmoothData Channel.setFresh
  dsimp only
  split <;> split <;> rfl

@[simp] theorem valuePtr_takeSample (buf : Nat → UInt16) (s : Channel) :
    (takeSample buf s).valuePtr = s.valuePtr := by
  unfold takeSample
  split
  · exact valuePtr_adcSmoothData buf s
  · split <;> rfl

/-- Only the sample of the channel matters. -/
theorem takeSample_congr (buf : Nat → UInt16) (s : Channel) :
    takeSample buf s = takeSample (fun _ => buf s.valuePtr) s := by
  unfold takeSample adcSmoothData
  dsimp only
  split
  · split <;> rfl
  · rfl

/-- The device after one round of the loop of the handler. -/
theorem handleSample_eq (d : Dev n) {seqCtr : Nat} (hptr : (d.ch id).valuePtr = seqCtr)
    (v : UInt16) :
    handleSample d seqCtr id v =
      let d' := { d with sampleBuf := Function.update d.sampleBuf seqCtr v }
      let s := (d.ch id).converted v
      if s.Complete then platformAdcStop (d'.set id s) id else d'.set id s := by
  unfold handleSample
  dsimp only
  rw [takeSample_congr]
  have hv : Function.update d.sampleBuf seqCtr v ((d.ch id).setFresh true).valuePtr = v := by
    rw [show ((d.ch id).setFresh true).valuePtr = seqCtr from hptr, Function.update_self]
  rw [hv]
  rfl

theorem sameSequence_handleSample (d : Dev n) (seqCtr : Nat) (id : Fin n) (v : UInt16) :
    SameSequence d (handleSample d seqCtr id v) := by
  have hbuf : SameSequence d { d with sampleBuf := Function.update d.sampleBuf seqCtr v } :=
    ⟨rfl, rfl, fun _ => rfl⟩
  have hset := hbuf.trans
    (sameSequence_set { d with sampleBuf := Function.update d.sampleBuf seqCtr v } id
      (valuePtr_takeSample (Function.update d.sampleBuf seqCtr v) ((d.ch id).setFresh true)))
  unfold handleSample
  dsimp only
  split
  · exact hset.trans (sameSequence_platformAdcStop _ id)
  · exact hset

/-- The channel that is handled. -/
theorem handleSample_ch (d : Dev n) {seqCtr : Nat} (hptr : (d.ch id).valuePtr = seqCtr)
    (v : UInt16) :
    (handleSample d seqCtr id v).ch id =
      if ((d.ch id).converted v).Complete then ((d.ch id).converted v).stopped
      else (d.ch id).converted v := by
  rw [handleSample_eq d hptr]
  dsimp only
  split
  · rw [platformAdcStop_ch, Dev.set_ch_self, Dev.set_ch_self]
    rfl
  · rw [Dev.set_ch_self]

theorem handleSample_chActive (d : Dev n) {seqCtr : Nat} (hptr : (d.ch id).valuePtr = seqCtr)
    (v : UInt16) :
    (handleSample d seqCtr id v).chActive id =
      if ((d.ch id).converted v).Complete then false else d.chActive id := by
  rw [handleSample_eq d hptr]
  dsimp only
  split
  · rw [platformAdcStop_chActive, Function.update_self]
  · rw [Dev.set_chActive]

/-- The other channels. -/
theorem handleSample_of_ne (d : Dev n) (seqCtr : Nat) (hne : id ≠ j) (v : UInt16) :
    (handleSample d seqCtr j v).ch id = d.ch id ∧
      (handleSample d seqCtr j v).chActive id = d.chActive id := by
  unfold handleSample
  dsimp only
  split
  · refine ⟨?_, ?_⟩
    · rw [platformAdcStop_ch, Dev.set_ch_of_ne _ hne, Dev.set_ch_of_ne _ hne]
    · rw [platformAdcStop_chActive, Function.update_of_ne hne, Dev.set_chActive]
  · exact ⟨Dev.set_ch_of_ne _ hne _, rfl⟩

theorem handleSample_sampleBuf (d : Dev n) (seqCtr : Nat) (v : UInt16) :
    (handleSample d seqCtr j v).sampleBuf = Function.update d.sampleBuf seqCtr v := by
  unfold handleSample
  dsimp only
  split
  · rw [platformAdcStop_sampleBuf, Dev.set_sampleBuf]
  · rw [Dev.set_sampleBuf]

/-! ## The loop of the handler -/

theorem handleSamples_append (conversions : Fin n → UInt16) (d : Dev n) (seqCtr : Nat)
    (ids ids' : List (Fin n)) :
    handleSamples conversions d seqCtr (ids ++ ids') =
      handleSamples conversions (handleSamples conversions d seqCtr ids) (seqCtr + ids.length)
        ids' := by
  induction ids generalizing d seqCtr with
  | nil => rfl
  | cons i ids ih =>
      rw [List.cons_append, handleSamples, handleSamples, ih, List.length_cons, Nat.add_assoc,
        Nat.add_comm 1]

theorem sameSequence_handleSamples (conversions : Fin n → UInt16) (d : Dev n) (seqCtr : Nat)
    (ids : List (Fin n)) : SameSequence d (handleSamples conversions d seqCtr ids) := by
  induction ids generalizing d seqCtr with
  | nil => exact SameSequence.refl d
  | cons i ids ih => exact (sameSequence_handleSample d seqCtr i (conversions i)).trans (ih _ _)

/-- A channel that is not handled. -/
theorem handleSamples_of_notMem (conversions : Fin n → UInt16) (d : Dev n) (seqCtr : Nat)
    {ids : List (Fin n)} (hid : id ∉ ids) :
    (handleSamples conversions d seqCtr ids).ch id = d.ch id ∧
      (handleSamples conversions d seqCtr ids).chActive id = d.chActive id := by
  induction ids generalizing d seqCtr with
  | nil => exact ⟨rfl, rfl⟩
  | cons i ids ih =>
      rw [List.mem_cons, not_or] at hid
      obtain ⟨hne, hrest⟩ := hid
      obtain ⟨hch, hactive⟩ := handleSample_of_ne d seqCtr hne (conversions i)
      obtain ⟨hch', hactive'⟩ := ih (handleSample d seqCtr i (conversions i)) (seqCtr + 1) hrest
      exact ⟨hch'.trans hch, hactive'.trans hactive⟩

/-- A place in front of those that are handled, or behind them. -/
theorem handleSamples_sampleBuf (conversions : Fin n → UInt16) (d : Dev n) (seqCtr : Nat)
    (ids : List (Fin n)) {i : Nat} (hi : i < seqCtr ∨ seqCtr + ids.length ≤ i) :
    (handleSamples conversions d seqCtr ids).sampleBuf i = d.sampleBuf i := by
  induction ids generalizing d seqCtr with
  | nil => rfl
  | cons j ids ih =>
      rw [List.length_cons] at hi
      have hne : i ≠ seqCtr := by omega
      have hrest : i < seqCtr + 1 ∨ seqCtr + 1 + ids.length ≤ i := by omega
      rw [handleSamples, ih _ _ hrest, handleSample_sampleBuf, Function.update_of_ne hne]

/-- A channel that is in the sequence gets its conversion, which stays in its place. -/
theorem handleSamples_of_mem (h : Sequenced d) (conversions : Fin n → UInt16)
    (hid : id ∈ d.chState) :
    let d' := handleSamples conversions d 0 d.chState
    let s := (d.ch id).converted (conversions id)
    d'.ch id = (if s.Complete then s.stopped else s) ∧
      d'.chActive id = (if s.Complete then false else d.chActive id) ∧
      d'.sampleBuf (d.ch id).valuePtr = conversions id := by
  obtain ⟨xs, ys, hsplit⟩ := List.append_of_mem hid
  have hnodup := h.nodup
  have hptr := h.valuePtr id (h.mem_iff.mp hid)
  rw [hsplit] at hnodup hptr
  have hxs : id ∉ xs := fun hmem =>
    (List.nodup_append.mp hnodup).2.2 id hmem id List.mem_cons_self rfl
  have hys : id ∉ ys := (List.nodup_cons.mp (List.nodup_append.mp hnodup).2.1).1
  rw [List.idxOf_append_of_notMem hxs, List.idxOf_cons_self, Nat.add_zero] at hptr
  intro d' s
  let d₁ := handleSamples conversions d 0 xs
  let d₂ := handleSample d₁ xs.length id (conversions id)
  have hd' : d' = handleSamples conversions d₂ (xs.length + 1) ys := by
    change handleSamples conversions d 0 d.chState = _
    rw [hsplit, handleSamples_append, Nat.zero_add]
    rfl
  obtain ⟨hch₁, hactive₁⟩ := handleSamples_of_notMem conversions d 0 hxs
  obtain ⟨hch₂, hactive₂⟩ := handleSamples_of_notMem conversions d₂ (xs.length + 1) hys
  have hptr₁ : (d₁.ch id).valuePtr = xs.length := by rw [hch₁, hptr]
  refine ⟨?_, ?_, ?_⟩
  · rw [hd', hch₂, handleSample_ch d₁ hptr₁, hch₁]
  · rw [hd', hactive₂, handleSample_chActive d₁ hptr₁, hch₁, hactive₁]
  · rw [hd', hptr, handleSamples_sampleBuf conversions d₂ _ _ (.inl (Nat.lt_succ_self _)),
      handleSample_sampleBuf, Function.update_self]

/-! ## Updating the sequence -/

/-- What an update of the sequence does to a channel: one that is active gets a new place,
and is not fresh any more. -/
def Updated (active : Bool) (s s' : Channel) : Prop :=
  s' = s ∨ active = true ∧ ∃ p, s' = { s.setFresh false with valuePtr := p }

theorem Updated.desc {active : Bool} {c c' : Channel} (h : Updated active c c') :
    c'.desc = c.desc := by
  rcases h with rfl | ⟨-, p, rfl⟩ <;> rfl

theorem adcUpdateDevSequence_ch (d : Dev n) (id : Fin n) :
    Updated (d.chActive id) (d.ch id) ((adcUpdateDevSequence d).ch id) := by
  unfold adcUpdateDevSequence
  split
  · dsimp only
    split
    · rename_i hactive
      exact .inr ⟨hactive, _, rfl⟩
    · exact .inl rfl
  · exact .inl rfl

@[simp] theorem adcUpdateDevSequence_chActive (d : Dev n) :
    (adcUpdateDevSequence d).chActive = d.chActive := by
  unfold adcUpdateDevSequence
  split <;> rfl

@[simp] theorem adcUpdateDevSequence_sampleBuf (d : Dev n) :
    (adcUpdateDevSequence d).sampleBuf = d.sampleBuf := by
  unfold adcUpdateDevSequence
  split <;> rfl

theorem sequenced_adcUpdateDevSequence (h : Sequenced d) : Sequenced (adcUpdateDevSequence d) := by
  unfold adcUpdateDevSequence
  split
  · refine ⟨rfl, ?_⟩
    intro id hlast
    change d.chActive id = true at hlast
    change Channel.valuePtr (if d.chActive id = true then _ else _) = _
    rw [if_pos hlast]
  · exact h

/-- The new sequence has the active channels. -/
theorem mem_adcUpdateDevSequence (h : Sequenced d) :
    id ∈ (adcUpdateDevSequence d).chState ↔ d.chActive id = true := by
  rw [(sequenced_adcUpdateDevSequence h).mem_iff]
  unfold adcUpdateDevSequence
  split
  · rfl
  · rename_i hsame
    rw [not_or, not_not] at hsame
    rw [hsame.1]

/-! ## The whole handler -/

/-- What the handler leaves to a channel, once its loop has been through the sequence. -/
theorem adcIntHandler_ch (d : Dev n) (conversions : Fin n → UInt16) (id : Fin n) :
    let d' := handleSamples conversions d 0 d.chState
    Updated (d'.chActive id) (d'.ch id) ((adcIntHandler d conversions).ch id) ∧
      (adcIntHandler d conversions).chActive = d'.chActive ∧
      (adcIntHandler d conversions).sampleBuf = d'.sampleBuf := by
  unfold adcIntHandler
  dsimp only
  split
  · exact ⟨adcUpdateDevSequence_ch _ id, adcUpdateDevSequence_chActive _,
      adcUpdateDevSequence_sampleBuf _⟩
  · exact ⟨.inl rfl, rfl, rfl⟩

theorem sequenced_adcIntHandler (h : Sequenced d) (conversions : Fin n → UInt16) :
    Sequenced (adcIntHandler d conversions) := by
  have hloop := h.congr (sameSequence_handleSamples conversions d 0 d.chState)
  unfold adcIntHandler
  dsimp only
  split
  · exact sequenced_adcUpdateDevSequence hloop
  · exact hloop

/-- While the device is running, the handler leaves the active channels in the sequence. -/
theorem chActive_of_adcIntHandler (h : Sequenced d) {conversions : Fin n → UInt16}
    (hrunning : (adcIntHandler d conversions).running = true)
    (hid : id ∈ (adcIntHandler d conversions).chState) :
    (adcIntHandler d conversions).chActive id = true := by
  have hloop := h.congr (sameSequence_handleSamples conversions d 0 d.chState)
  unfold adcIntHandler at hrunning hid ⊢
  dsimp only at hrunning hid ⊢
  split at hrunning
  · rename_i hrun
    rw [if_pos hrun] at hid ⊢
    rw [adcUpdateDevSequence_chActive]
    exact (mem_adcUpdateDevSequence hloop).mp hid
  · rename_i hrun
    exact absurd hrunning hrun

end Adc
