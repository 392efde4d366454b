import EluaWebServer.Adc.Request

/-!
# A conversion of a request

While interrupts come in time, a request is served: what is returned, removed, buffered and
fresh is the list of the conversions.  A conversion goes behind what is there, and the other
interrupts leave it.
-/

namespace Adc

open Charbuf Charbuf.System Memory

variable {n : Nat} {s s' : Sys n} {id : Fin n} {v v' : View n} {q : Request}
  {waiting : List UInt16}

/-! ## Samples as bytes -/

theorem ofSample_sampleMem (x : UInt16) : ofSample (loadBytes (sampleMem x) 0 2) = x := by
  change Word.ofBytes16 ((Word.bytes16 x).getD 0 0) ((Word.bytes16 x).getD 1 0) = x
  exact Word.ofBytes16_bytes16 x

/-! ## What the invariant says about lengths -/

/-- A fresh sample that has been loaded counts as removed. -/
theorem removed_of_loaded {main : Main n} (h : loaded id main = true) : removed id main ≠ [] := by
  simp only [loaded, Bool.and_eq_true, decide_eq_true_eq] at h
  rw [removed, if_pos h.1]
  cases main with
  | loadFlags j sample | storeFlags j sample flags => simp [Main.removed]
  | _ => cases h.2

theorem Buffered.count {p : BufDesc} {reader : Reader} {samples : Nat}
    (h : Buffered p reader samples waiting) : p.count = waiting.length := by
  rcases h with ⟨-, rfl, hcount⟩ | ⟨r, unread, hread, -, -, rfl⟩
  · exact hcount
  · rw [List.length_map]
    exact hread.count

namespace Serving

theorem length_eq (h : Serving id v q waiting) :
    q.conversions.length = q.values.length + (removed id v.main).length + waiting.length +
      (freshSample id v q).length := by
  have hlen := congrArg List.length h.conversions
  simpa only [List.length_append] using hlen

/-- While conversions are to come, no sample is fresh. -/
theorem not_fresh (h : Serving id v q waiting) (hactive : v.active = true) :
    ¬ Fresh v.channel q := by
  intro hfresh
  have hlt := h.active.mp hactive
  have heq := (h.fresh hfresh).2
  omega

end Serving

theorem freshSample_eq_nil (hfresh : ¬ Fresh v.channel q) : freshSample id v q = [] := by
  unfold freshSample
  rw [if_neg]
  rintro ⟨hconv, hmark, -⟩
  exact hfresh ⟨hconv, hmark⟩

theorem freshSample_eq (hfresh : Fresh v.channel q) (hloaded : loaded id v.main = false) :
    freshSample id v q = [v.value] :=
  if_pos ⟨hfresh.1, hfresh.2, hloaded⟩

theorem freshSample_loaded (hloaded : loaded id v.main = true) : freshSample id v q = [] := by
  unfold freshSample
  rw [if_neg]
  rintro ⟨-, -, hnot⟩
  rw [hloaded] at hnot
  cases hnot

/-! ## Steps that do not concern the request -/

/-- What a request depends on in its channel is the same, but for a mark that is taken back
while conversions are to come. -/
structure Unaffected (active : Bool) (c c' : Channel) : Prop where
  smoothing : c'.logsmoothlen = c.logsmoothlen
  freerunning : c'.flags.freerunning = c.flags.freerunning
  reqsamples : c'.reqsamples = c.reqsamples
  desc : c'.desc = c.desc
  valueFresh : c'.flags.valueFresh = c.flags.valueFresh ∨
    active = true ∧ c'.flags.valueFresh = false

theorem Unaffected.refl (active : Bool) (c : Channel) : Unaffected active c c :=
  ⟨rfl, rfl, rfl, rfl, .inl rfl⟩

theorem Updated.unaffected {active : Bool} {c c' : Channel} (h : Updated active c c') :
    Unaffected active c c' := by
  rcases h with rfl | ⟨hactive, p, rfl⟩
  · exact Unaffected.refl active c'
  · exact ⟨rfl, rfl, rfl, rfl, .inr ⟨hactive, rfl⟩⟩

theorem Found.congr {c c' : Channel} {main : Main n} (h : Found c q waiting main)
    (hfresh : Fresh c q → Fresh c' q) (hreq : c'.reqsamples = c.reqsamples) :
    Found c' q waiting main := by
  cases main with
  | testFresh j => exact h.imp_right hfresh
  | loadValue j | loadFlags j sample => exact hfresh h
  | storeFlags j sample flags => exact ⟨hfresh h.1, h.2⟩
  | storeReq j sample reqsamples => exact Eq.trans h hreq.symm
  | bufRead j reader | smooth j => exact h
  | _ => trivial

/-- A step that leaves the samples where they are. -/
theorem Serving.congr (h : Serving id v q waiting)
    (hchannel : Unaffected v.active v.channel v'.channel) (hactive : v'.active = v.active)
    (hsampled : v'.sampled = true → v'.active = true)
    (hvalue : Fresh v.channel q → loaded id v.main = false →
      v'.channel.flags.valueFresh = true → v'.value = v.value)
    (hremoved : removed id v'.main = removed id v.main)
    (hloaded : loaded id v'.main = loaded id v.main)
    (hreader : readerOf id v'.main = readerOf id v.main)
    (hfound : v'.main.channel = some id → Found v.channel q waiting v'.main) :
    Serving id v' q waiting := by
  have hfresh : Fresh v'.channel q ↔ Fresh v.channel q := by
    rcases hchannel.valueFresh with heq | ⟨hact, hnot⟩
    · rw [Fresh, Fresh, heq]
    · refine iff_of_false ?_ (h.not_fresh hact)
      rintro ⟨-, hmark⟩
      rw [hnot] at hmark
      cases hmark
  have hsample : freshSample id v' q = freshSample id v q := by
    by_cases hf : Fresh v.channel q
    · cases hl : loaded id v.main with
      | false =>
          rw [freshSample_eq hf hl, freshSample_eq (hfresh.mpr hf) (hloaded.trans hl),
            hvalue hf hl (hfresh.mpr hf).2]
      | true => rw [freshSample_loaded hl, freshSample_loaded (hloaded.trans hl)]
    · rw [freshSample_eq_nil hf, freshSample_eq_nil (mt hfresh.mp hf)]
  exact {
    smoothing := hchannel.smoothing.trans h.smoothing
    freerunning := hchannel.freerunning.trans h.freerunning
    reqsamples := hchannel.reqsamples ▸ h.reqsamples
    samples := h.samples
    active := hactive ▸ h.active
    sampled := hsampled
    enough := h.enough
    conversions := by rw [hremoved, hsample, ← h.conversions]
    fresh := fun hf => h.fresh (hfresh.mp hf)
    buffered := by
      rw [hchannel.desc, hreader]
      exact h.buffered
    found := fun hch => (hfound hch).congr hfresh.mpr hchannel.reqsamples }

/-! ## A conversion -/

section

variable {c : Channel} (hsmooth : c.logsmoothlen = 0)

include hsmooth

theorem not_warming_up :
    ¬ (0 < (c.setFresh true).logsmoothlen ∧ (c.setFresh true).flags.smoothReady = false) := by
  rw [Channel.setFresh_logsmoothlen, hsmooth]
  exact fun h => absurd h.1 (Nat.lt_irrefl 0)

/-- A conversion that goes to the buffer. -/
theorem converted_buffered (hreq : 1 < c.reqsamples) (x : UInt16) :
    c.converted x =
      Channel.setFresh { c with desc := (bufWrite c.desc (sampleMem x)).1 } false := by
  unfold Channel.converted takeSample
  rw [if_neg (not_warming_up hsmooth), Channel.setFresh_reqsamples, if_pos hreq]
  rfl

/-- The last conversion stays in its place. -/
theorem converted_last (hreq : ¬ 1 < c.reqsamples) (x : UInt16) :
    c.converted x = c.setFresh true := by
  unfold Channel.converted takeSample
  rw [if_neg (not_warming_up hsmooth), Channel.setFresh_reqsamples, if_neg hreq]

end

/-- The view after a conversion of the channel, where its next one is not looked at yet. -/
def View.converted (v : View n) (x : UInt16) : View n :=
  let c := v.channel.converted x
  if c.Complete then ⟨c.stopped, false, false, x, v.main⟩ else ⟨c, v.active, false, x, v.main⟩

/-- Whether the conversion stops the channel is all that it depends on. -/
theorem Serving.of_converted {x : UInt16} (hactive : v.active = true)
    (h : Serving id
      ⟨v.channel.converted x, !decide (v.channel.converted x).Complete, false, x, v.main⟩
      q waiting) : Serving id (v.converted x) q waiting := by
  unfold View.converted
  dsimp only
  split
  · rename_i hcomplete
    refine h.congr ⟨rfl, rfl, rfl, rfl, .inl rfl⟩ ?_ Bool.noConfusion (fun _ _ _ => rfl) rfl rfl
      rfl h.found
    simp [hcomplete]
  · rename_i hcomplete
    refine h.congr (Unaffected.refl _ _) ?_ Bool.noConfusion (fun _ _ _ => rfl) rfl rfl rfl
      h.found
    simp [hcomplete, hactive]

/-- A conversion while more than one sample is requested. -/
theorem Serving.converted_buffered (h : Serving id v q waiting) (hactive : v.active = true)
    (hok : removed id v.main ≠ [] → q.conversions.length + 1 < q.samples)
    (hreq : 1 < v.channel.reqsamples) (x : UInt16) :
    Serving id (v.converted x) { q with conversions := q.conversions ++ [x] } (waiting ++ [x]) := by
  have hreq' : 1 < v.channel.reqsamples.toNat := hreq
  have hnot := h.not_fresh hactive
  have hlen := h.length_eq
  have hlt := h.active.mp hactive
  have hsum := h.reqsamples
  rw [freshSample_eq_nil hnot, List.length_nil, Nat.add_zero] at hlen
  -- the buffer has a free slot
  obtain ⟨hone, -, -⟩ | ⟨r, unread, hread, hslots, hdsize, hwaiting⟩ := h.buffered
  · omega
  · have hunread : unread.length = waiting.length := by rw [hwaiting, List.length_map]
    obtain ⟨p', hwrite, hread', hsize', hdsize'⟩ := hread.bufWrite (by omega) (sampleMem x)
    have hc : v.channel.converted x = Channel.setFresh { v.channel with desc := p' } false := by
      rw [Adc.converted_buffered h.smoothing hreq, hwrite]
    have hcount : p'.count = waiting.length + 1 := by
      rw [hread'.count, List.length_append, hunread, List.length_singleton]
    have hcomplete : ¬ (v.channel.converted x).Complete ↔ q.conversions.length + 1 < q.samples := by
      have havailable : adcSamplesAvailable (v.channel.converted x) = waiting.length + 1 := by
        rw [hc, adcSamplesAvailable, Channel.setFresh_desc, bufGetCount, hcount]
        rfl
      rw [Channel.Complete, havailable, hc, Channel.setFresh_freerunning,
        Channel.setFresh_reqsamples, and_iff_left h.freerunning, Nat.not_le]
      change waiting.length + 1 < v.channel.reqsamples.toNat ↔ _
      -- a removed sample is counted by `reqsamples`, and this is not the last conversion
      cases hremoved : removed id v.main with
      | nil =>
          rw [hremoved, List.length_nil] at hlen
          omega
      | cons y ys =>
          have hlast := hok (by simp [hremoved])
          rw [hremoved, List.length_cons] at hlen
          omega
    have hbuffered : Buffered p' (readerOf id v.main) q.samples (waiting ++ [x]) := by
      refine .inr ⟨r, _, hread', ?_, hdsize'.trans hdsize, ?_⟩
      · rw [← hslots, BufDesc.slots, BufDesc.slots, hsize', hdsize']
      · have hdata : loadBytes (sampleMem x) 0 v.channel.desc.realDsize =
            loadBytes (sampleMem x) 0 2 := by
          rw [BufDesc.realDsize, hdsize]
          rfl
        rw [List.map_append, ← hwaiting, List.map_singleton, hdata, ofSample_sampleMem]
    have hunmarked : ∀ q' : Request, ¬ Fresh (v.channel.converted x) q' := by
      intro q' hfresh
      rw [hc] at hfresh
      cases hfresh.2
    refine Serving.of_converted hactive ⟨?_, ?_, ?_, h.samples, ?_, Bool.noConfusion, ?_, ?_,
      fun hf => absurd hf (hunmarked _), ?_, ?_⟩
    · exact hc ▸ h.smoothing
    · exact hc ▸ h.freerunning
    · exact hc ▸ h.reqsamples
    · rw [Bool.not_eq_true', decide_eq_false_iff_not, hcomplete, List.length_append,
        List.length_singleton]
    · rw [List.length_append, List.length_singleton]
      exact hlt
    · rw [freshSample_eq_nil (hunmarked _), List.append_nil, ← List.append_assoc]
      refine congrArg (· ++ [x]) ?_
      rw [h.conversions, freshSample_eq_nil hnot, List.append_nil]
    · exact hc ▸ hbuffered
    · intro hch
      have hfound := h.found hch
      dsimp only at hch ⊢
      cases hmain : v.main with
      | testFresh j => exact .inl (by simp)
      | bufRead j reader => exact fun _ => by simp
      | loadValue j | loadFlags j sample =>
          rw [hmain] at hfound
          exact absurd hfound hnot
      | storeFlags j sample flags =>
          rw [hmain] at hfound
          exact absurd hfound.1 hnot
      | storeReq j sample reqsamples =>
          rw [hmain] at hfound
          exact hc ▸ hfound
      | smooth j =>
          rw [hmain] at hfound
          exact hfound
      | _ => trivial

/-- The last conversion. -/
theorem Serving.converted_last (h : Serving id v q waiting) (hactive : v.active = true)
    (hreq : ¬ 1 < v.channel.reqsamples) (x : UInt16) :
    Serving id (v.converted x) { q with conversions := q.conversions ++ [x] } waiting := by
  have hreq' : ¬ 1 < v.channel.reqsamples.toNat := hreq
  have hlen := h.length_eq
  have hlt := h.active.mp hactive
  have hsum := h.reqsamples
  rw [freshSample_eq_nil (h.not_fresh hactive), List.length_nil, Nat.add_zero] at hlen
  have hc : v.channel.converted x = v.channel.setFresh true := Adc.converted_last h.smoothing hreq x
  -- all the other conversions have been returned
  have hwaiting : waiting = [] := List.eq_nil_of_length_eq_zero (by omega)
  have hremoved : removed id v.main = [] := List.eq_nil_of_length_eq_zero (by omega)
  have hloaded : loaded id v.main = false := by
    cases hl : loaded id v.main with
    | false => rfl
    | true => exact absurd hremoved (removed_of_loaded hl)
  have hmarked : Fresh (v.channel.converted x) { q with conversions := q.conversions ++ [x] } := by
    rw [hc]
    exact ⟨by simp, rfl⟩
  have hcomplete : (v.channel.converted x).Complete := by
    have hcount : v.channel.desc.count = 0 := by rw [h.buffered.count, hwaiting, List.length_nil]
    rw [hc]
    refine ⟨?_, h.freerunning⟩
    rw [adcSamplesAvailable, Channel.setFresh_desc, bufGetCount, hcount]
    change v.channel.reqsamples.toNat ≤ 1
    omega
  refine Serving.of_converted hactive ⟨?_, ?_, ?_, h.samples, ?_, Bool.noConfusion, ?_, ?_, ?_,
    ?_, ?_⟩
  · exact hc ▸ h.smoothing
  · exact hc ▸ h.freerunning
  · exact hc ▸ h.reqsamples
  · rw [Bool.not_eq_true', decide_eq_false_iff_not, List.length_append, List.length_singleton]
    exact iff_of_false (fun hnot => hnot hcomplete) (by dsimp only; omega)
  · rw [List.length_append, List.length_singleton]
    exact hlt
  · have hconv := h.conversions
    rw [freshSample_eq_nil (h.not_fresh hactive), hremoved, hwaiting, List.append_nil,
      List.append_nil, List.append_nil] at hconv
    have hsample : freshSample id
        ⟨v.channel.converted x, !decide (v.channel.converted x).Complete, false, x, v.main⟩
        { q with conversions := q.conversions ++ [x] } = [x] := freshSample_eq hmarked hloaded
    rw [hsample, hremoved, hwaiting, List.append_nil, List.append_nil, hconv]
  · intro _
    rw [List.length_append, List.length_singleton]
    exact ⟨by dsimp only; omega, by dsimp only; omega⟩
  · rw [hc]
    exact h.buffered
  · intro hch
    have hfound := h.found hch
    dsimp only at hch ⊢
    cases hmain : v.main with
    | testFresh j => exact .inr hmarked
    | loadValue j | loadFlags j sample => exact hmarked
    | storeFlags j sample flags =>
        rw [hmain] at hfound
        exact ⟨hmarked, hfound.2⟩
    | storeReq j sample reqsamples =>
        rw [hmain] at hfound
        exact hc ▸ hfound
    | bufRead j reader | smooth j =>
        rw [hmain] at hfound
        exact hfound
    | _ => trivial

/-- **A conversion is served.**  It goes to the buffer, or stays in its place as the last one,
and the channel is stopped with the last one only. -/
theorem Serving.converted (h : Serving id v q waiting) (hactive : v.active = true)
    (hok : removed id v.main ≠ [] → q.conversions.length + 1 < q.samples) (x : UInt16) :
    ∃ waiting',
      Serving id (v.converted x) { q with conversions := q.conversions ++ [x] } waiting' := by
  by_cases hreq : 1 < v.channel.reqsamples
  · exact ⟨_, h.converted_buffered hactive hok hreq x⟩
  · exact ⟨_, h.converted_last hactive hreq x⟩

/-! ## An interrupt -/

theorem View.converted_channel (v : View n) (x : UInt16) :
    (v.converted x).channel =
      if (v.channel.converted x).Complete then (v.channel.converted x).stopped
      else v.channel.converted x := by
  unfold View.converted
  dsimp only
  split <;> rfl

theorem View.converted_active (v : View n) (x : UInt16) :
    (v.converted x).active = if (v.channel.converted x).Complete then false else v.active := by
  unfold View.converted
  dsimp only
  split <;> rfl

theorem View.converted_main (v : View n) (x : UInt16) :
    (v.converted x).main = v.main ∧ (v.converted x).value = x := by
  unfold View.converted
  dsimp only
  split <;> exact ⟨rfl, rfl⟩

/-- A channel in the sequence: its conversion, then the update of the sequence. -/
theorem Serving.interrupt_of_mem (h : Serving id (view id s) q waiting) (hseq : Sequenced s.dev)
    (hactive : s.dev.chActive id = true) (hid : id ∈ s.dev.chState)
    (hok : removed id s.main ≠ [] → q.conversions.length + 1 < q.samples)
    (conversions : Fin n → UInt16) :
    ∃ waiting', Serving id (view id { s with dev := adcIntHandler s.dev conversions })
      { q with conversions := q.conversions ++ [conversions id] } waiting' := by
  obtain ⟨waiting', h'⟩ := h.converted hactive hok (conversions id)
  obtain ⟨hupdated, hact, hbuf⟩ := adcIntHandler_ch s.dev conversions id
  obtain ⟨hch, hact', hvalue⟩ := handleSamples_of_mem hseq conversions hid
  obtain ⟨hmain, hx⟩ := View.converted_main (view id s) (conversions id)
  rw [hact', hch] at hupdated
  refine ⟨waiting', h'.congr ?_ ?_ ?_ ?_ ?_ ?_ ?_ ?_⟩
  · rw [View.converted_channel, View.converted_active]
    exact hupdated.unaffected
  · rw [View.converted_active]
    exact (congrFun hact id).trans hact'
  · intro hsampled
    simp only [view, Bool.and_eq_true, decide_eq_true_eq] at hsampled ⊢
    exact chActive_of_adcIntHandler hseq hsampled.1 hsampled.2
  · intro _ _ hfresh
    rcases hupdated with hsame | ⟨-, p, hsame⟩
    · have hptr : ((adcIntHandler s.dev conversions).ch id).valuePtr = (s.dev.ch id).valuePtr := by
        rw [hsame]
        split
        · exact valuePtr_takeSample _ _
        · exact valuePtr_takeSample _ _
      change (adcIntHandler s.dev conversions).sampleBuf
        ((adcIntHandler s.dev conversions).ch id).valuePtr = _
      rw [hptr, hbuf, hvalue, hx]
    · change ((adcIntHandler s.dev conversions).ch id).flags.valueFresh = true at hfresh
      rw [hsame] at hfresh
      cases hfresh
  · rw [hmain]
    rfl
  · rw [hmain]
    rfl
  · rw [hmain]
    rfl
  · intro hchannel
    have hfound := h'.found
    rw [hmain] at hfound
    exact hfound hchannel

/-- A channel that is not in the sequence. -/
theorem Serving.interrupt_of_notMem (h : Serving id (view id s) q waiting) (hseq : Sequenced s.dev)
    (hid : id ∉ s.dev.chState) (conversions : Fin n → UInt16)
    (hok : (s.dev.ch id).flags.valueFresh = true → q.conversions ≠ [] → loaded id s.main = false →
      s.dev.chState.length ≤ (s.dev.ch id).valuePtr) :
    Serving id (view id { s with dev := adcIntHandler s.dev conversions }) q waiting := by
  obtain ⟨hupdated, hact, hbuf⟩ := adcIntHandler_ch s.dev conversions id
  obtain ⟨hch, hact'⟩ := handleSamples_of_notMem conversions s.dev 0 hid
  rw [hact', hch] at hupdated
  refine h.congr hupdated.unaffected ((congrFun hact id).trans hact') ?_ ?_ rfl rfl rfl h.found
  · intro hsampled
    simp only [view, Bool.and_eq_true, decide_eq_true_eq] at hsampled ⊢
    exact chActive_of_adcIntHandler hseq hsampled.1 hsampled.2
  · intro hfresh hloaded hmark
    rcases hupdated with hsame | ⟨-, p, hsame⟩
    · have hbehind := hok hfresh.2 hfresh.1 hloaded
      change (adcIntHandler s.dev conversions).sampleBuf
        ((adcIntHandler s.dev conversions).ch id).valuePtr = s.dev.sampleBuf (s.dev.ch id).valuePtr
      rw [hsame, hbuf, handleSamples_sampleBuf conversions s.dev 0 _ (.inr (by rwa [Nat.zero_add]))]
    · change ((adcIntHandler s.dev conversions).ch id).flags.valueFresh = true at hmark
      rw [hsame] at hmark
      cases hmark

end Adc
