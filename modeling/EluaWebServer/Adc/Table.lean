import EluaWebServer.Adc.Sequence
import EluaWebServer.Lib.Transition

/-!
# The table of the sequence

`ch_state` is an array of `NUM_ADC` pointers, with `NULL` behind the channels of the
sequence, and `seq_ctr` and `seq_len` are kept beside it.  Every pointer that is followed
is checked.  The rebuilt table is that of the sequence, but a rebuild looks up the
channel at the old counter first, and the hardware is given the last channel of the new
sequence whether there is one or not.
-/

namespace Adc

variable {n : Nat}

/-- The device with its table and the counters, which have no more than 32 channels to
count.  The sequence of `Dev` is what the table lists. -/
structure SeqDev (n : Nat) extends Dev n where
  entries : Nat → Option (Fin n)
  seqCtr : Nat
  seqLen : Nat

namespace SeqDev

/-- `*d->ch_state[ p ]`, which is none for `NULL`. -/
def entry (d : SeqDev n) (p : Nat) : Option (Fin n) := if p < n then d.entries p else none

/-- What the table lists. -/
def listing (d : SeqDev n) : Dev n :=
  { d.toDev with chState := (List.range d.seqLen).filterMap d.entries }

/-- One round of the loop of `adc_update_dev_sequence`, with `tmp_seq_ctr`. -/
def place (previd : Fin n) (r : SeqDev n × Nat) (id : Fin n) : SeqDev n × Nat :=
  let d := r.1
  if d.chActive id then
    ({ d with
        entries := Function.update d.entries d.seqCtr (some id)
        ch := Function.update d.ch id { (d.ch id).setFresh false with valuePtr := d.seqCtr }
        seqCtr := d.seqCtr + 1 },
      if id = previd then d.seqCtr else r.2)
  else r

/-- `platform_adc_update_sequence`: the steps of the sequencer are those of the table, the
last of them with the interrupt. -/
def platformAdcUpdateSequence (d : SeqDev n) : Option (SeqDev n) :=
  ((List.range (d.seqLen - 1) ++ [d.seqLen - 1]).mapM d.entry).map fun _ => { d with seqCtr := 0 }

/-- The new sequence, with the rest of it nulled out. -/
def rewrite (previd : Fin n) (d : SeqDev n) : SeqDev n × Nat :=
  let r := (List.finRange n).foldl (place previd) ({ d with seqCtr := 0 }, 0)
  ({ r.1 with
      seqLen := r.1.seqCtr
      entries := fun p => if r.1.seqCtr ≤ p then none else r.1.entries p
      seqCtr := 0 }, r.2)

/-- `adc_update_dev_sequence`. -/
def adcUpdateDevSequence (d : SeqDev n) : Option (SeqDev n) :=
  (d.entry d.seqCtr).bind fun previd =>
    if d.chActive ≠ d.lastChActive ∨ d.forceReseq = true then
      let r := rewrite previd d
      -- Sync up hardware
      (platformAdcUpdateSequence r.1).map fun d =>
        { d with lastChActive := d.chActive, seqCtr := r.2, forceReseq := false }
    else some d

/-- The loop of `ADCIntHandler`. -/
def handleSamples (tmpbuff : Nat → UInt16) (d : SeqDev n) (positions : List Nat) :
    Option (SeqDev n) :=
  positions.foldlM (fun d p => (d.entry p).map fun id =>
    { d with toDev := handleSample d.toDev p id (tmpbuff p), seqCtr := p + 1 }) d

/-- `ADCIntHandler`. -/
def adcIntHandler (tmpbuff : Nat → UInt16) (d : SeqDev n) : Option (SeqDev n) :=
  (handleSamples tmpbuff { d with seqCtr := 0 } (List.range d.seqLen)).bind fun d =>
    let d := { d with seqCtr := 0 }
    if d.running then adcUpdateDevSequence d else some d

/-- `platform_adc_start_sequence`. -/
def platformAdcStartSequence (d : SeqDev n) : Option (SeqDev n) :=
  if d.running then some d
  else (adcUpdateDevSequence d).map fun d => { d with running := true }

/-- The device before its first sequence; the static variables are zero. -/
def init (adcBufSize : Nat) (allocated : Fin n → Bool) (m : Fin n → Memory.Mem) : SeqDev n :=
  { adcsInit adcBufSize allocated m with entries := fun _ => none, seqCtr := 0, seqLen := 0 }

/-! ## Rewriting the table -/

variable {d : SeqDev n} {previd : Fin n}

/-- The channels of a set, in the order of their ids. -/
abbrev sequence (active : Fin n → Bool) : List (Fin n) := (List.finRange n).filter (active ·)

theorem foldl_place {ids : List (Fin n)} (hids : ids.Nodup) (tmp : Nat) :
    ids.foldl (place previd) (d, tmp) =
      ({ d with
          ch := fun id =>
            if id ∈ ids ∧ d.chActive id = true then
              { (d.ch id).setFresh false with
                valuePtr := d.seqCtr + (ids.filter (d.chActive ·)).idxOf id }
            else d.ch id
          entries := fun p =>
            if d.seqCtr ≤ p ∧ p < d.seqCtr + (ids.filter (d.chActive ·)).length then
              (ids.filter (d.chActive ·))[p - d.seqCtr]?
            else d.entries p
          seqCtr := d.seqCtr + (ids.filter (d.chActive ·)).length },
        if previd ∈ ids.filter (d.chActive ·) then
          d.seqCtr + (ids.filter (d.chActive ·)).idxOf previd
        else tmp) := by
  induction ids generalizing d tmp with
  | nil =>
      have hnone : ∀ p, ¬ (d.seqCtr ≤ p ∧ p < d.seqCtr) := by omega
      simp [hnone]
  | cons id ids ih =>
      obtain ⟨hid, hrest⟩ := List.nodup_cons.mp hids
      rw [List.foldl_cons, place]
      by_cases hactive : d.chActive id = true
      · rw [if_pos hactive, ih hrest, List.filter_cons_of_pos hactive]
        dsimp only
        generalize hseq : ids.filter (d.chActive ·) = seq
        have hnot : id ∉ seq := by
          rw [← hseq]
          exact fun hmem => hid (List.mem_of_mem_filter hmem)
        have hlen : d.seqCtr + (id :: seq).length = d.seqCtr + 1 + seq.length := by
          rw [List.length_cons, Nat.add_right_comm, Nat.add_assoc]
        have hidx : ∀ j, j ≠ id →
            d.seqCtr + (id :: seq).idxOf j = d.seqCtr + 1 + seq.idxOf j := by
          intro j hj
          rw [List.idxOf_cons_ne _ (Ne.symm hj), Nat.succ_eq_add_one, Nat.add_right_comm,
            Nat.add_assoc]
        have hself : d.seqCtr + (id :: seq).idxOf id = d.seqCtr := by
          rw [List.idxOf_cons_self, Nat.add_zero]
        rw [hlen]
        refine Prod.ext ?_ ?_
        · dsimp only
          congr 1
          · congr 1
            funext j
            by_cases hj : j = id
            · subst hj
              rw [if_neg fun h => hid h.1, if_pos ⟨List.mem_cons_self, hactive⟩,
                Function.update_self, hself]
            · rw [Function.update_of_ne hj, hidx j hj]
              simp only [List.mem_cons, hj, false_or]
          · funext p
            by_cases hp : p = d.seqCtr
            · subst hp
              rw [if_neg (by omega), if_pos (by omega), Function.update_self, Nat.sub_self]
              rfl
            · rw [Function.update_of_ne hp]
              by_cases hin : d.seqCtr + 1 ≤ p ∧ p < d.seqCtr + 1 + seq.length
              · obtain ⟨q, rfl⟩ := Nat.exists_eq_add_of_le hin.1
                rw [if_pos hin, if_pos (by omega), Nat.add_sub_cancel_left,
                  show d.seqCtr + 1 + q - d.seqCtr = q + 1 by omega, List.getElem?_cons_succ]
              · rw [if_neg hin, if_neg (by omega)]
        · dsimp only
          by_cases hprev : previd = id
          · subst hprev
            rw [if_neg hnot, if_pos rfl, if_pos List.mem_cons_self, hself]
          · rw [if_neg (Ne.symm hprev), hidx _ hprev]
            simp only [List.mem_cons, hprev, false_or]
      · rw [if_neg hactive, ih hrest, List.filter_cons_of_neg hactive]
        have hch : ∀ j, (j ∈ id :: ids ∧ d.chActive j = true) ↔ (j ∈ ids ∧ d.chActive j = true) := by
          intro j
          rw [List.mem_cons]
          constructor
          · rintro ⟨rfl | hj, h⟩
            · exact absurd h hactive
            · exact ⟨hj, h⟩
          · exact fun h => ⟨.inr h.1, h.2⟩
        simp only [hch]

theorem sequence_nodup (active : Fin n → Bool) : (sequence active).Nodup :=
  (List.nodup_finRange n).filter _

theorem mem_sequence {active : Fin n → Bool} {id : Fin n} :
    id ∈ sequence active ↔ active id = true := by
  simp [sequence]

theorem sequence_length_le (active : Fin n → Bool) : (sequence active).length ≤ n := by
  have hle := List.length_filter_le (active ·) (List.finRange n)
  rwa [List.length_finRange] at hle

/-- The new sequence is that of the active channels. -/
theorem rewrite_eq (previd : Fin n) (d : SeqDev n) :
    rewrite previd d =
      ({ d with
          ch := fun id =>
            if d.chActive id = true then
              { (d.ch id).setFresh false with valuePtr := (sequence d.chActive).idxOf id }
            else d.ch id
          entries := fun p => (sequence d.chActive)[p]?
          seqCtr := 0
          seqLen := (sequence d.chActive).length },
        if previd ∈ sequence d.chActive then (sequence d.chActive).idxOf previd else 0) := by
  rw [rewrite, foldl_place (List.nodup_finRange n)]
  simp only [Nat.zero_add, List.mem_finRange, true_and, Nat.zero_le, Nat.sub_zero]
  refine Prod.ext ?_ rfl
  dsimp only
  congr 1
  funext p
  split
  · rename_i hle
    exact (List.getElem?_eq_none hle).symm
  · rename_i hlt
    rw [if_pos (by omega)]

/-- The sequencer is given the channels of the table, if there are some. -/
theorem platformAdcUpdateSequence_eq (hlen : 0 < d.seqLen)
    (hentry : ∀ p, p < d.seqLen → d.entry p ≠ none) :
    platformAdcUpdateSequence d = some { d with seqCtr := 0 } := by
  have hmap : ∀ ps : List Nat, (∀ p ∈ ps, p < d.seqLen) → ∃ ids, ps.mapM d.entry = some ids := by
    intro ps hps
    induction ps with
    | nil => exact ⟨[], rfl⟩
    | cons p ps ih =>
        obtain ⟨id, hid⟩ := Option.ne_none_iff_exists'.mp (hentry p (hps p List.mem_cons_self))
        obtain ⟨ids, hids⟩ := ih fun q hq => hps q (List.mem_cons_of_mem p hq)
        exact ⟨id :: ids, by simp [List.mapM_cons, hid, hids]⟩
  obtain ⟨ids, hids⟩ := hmap (List.range (d.seqLen - 1) ++ [d.seqLen - 1]) (by
    intro p hp
    rw [List.mem_append, List.mem_range, List.mem_singleton] at hp
    omega)
  rw [platformAdcUpdateSequence, hids, Option.map_some]

/-- An empty sequence has no last channel. -/
theorem platformAdcUpdateSequence_none (hlen : d.seqLen = 0) (hentry : d.entry 0 = none) :
    platformAdcUpdateSequence d = none := by
  simp [platformAdcUpdateSequence, hlen, hentry]

/-! ## Updates -/

/-- The table lists the active channels in the order of their ids, each with its place, and
nothing behind them; the counter is that of one of them. -/
structure Listed (d : SeqDev n) : Prop where
  entries : ∀ p, p < n → d.entries p = (sequence d.chActive)[p]?
  seqLen : d.seqLen = (sequence d.chActive).length
  valuePtr : ∀ p id, p < d.seqLen → d.entries p = some id → (d.ch id).valuePtr = p
  seqCtr : d.seqCtr < d.seqLen

/-- No sequence has been built, and the device does not run. -/
structure Unbuilt (d : SeqDev n) : Prop where
  entries : ∀ p, d.entries p = none
  seqLen : d.seqLen = 0
  running : d.running = false

/-- The table has the channels that were active when it was built, at least one, and while
the device runs there is an active channel. -/
structure Built (d : SeqDev n) : Prop where
  entries : ∀ p, p < n → d.entries p = (sequence d.lastChActive)[p]?
  seqLen : d.seqLen = (sequence d.lastChActive).length
  valuePtr : ∀ p id, p < d.seqLen → d.entries p = some id → (d.ch id).valuePtr = p
  seqCtr : d.seqCtr < d.seqLen
  running : d.running = true → ∃ id, d.chActive id = true

/-- An update can be made: there is a channel at the counter, and one to be listed. -/
def Updatable (d : SeqDev n) : Prop := d.entry d.seqCtr ≠ none ∧ ∃ id, d.chActive id = true

instance (d : SeqDev n) : Decidable (Updatable d) :=
  inferInstanceAs (Decidable (d.entry d.seqCtr ≠ none ∧ ∃ id, d.chActive id = true))

theorem Built.entry_ne_none (h : Built d) {p : Nat} (hp : p < d.seqLen) : d.entry p ≠ none := by
  have hlen := h.seqLen
  have hle := sequence_length_le d.lastChActive
  rw [entry, if_pos (by omega), h.entries p (by omega), List.getElem?_eq_getElem (by omega)]
  exact Option.some_ne_none _

theorem Unbuilt.entry_eq_none (h : Unbuilt d) (p : Nat) : d.entry p = none := by
  rw [entry]
  split
  · exact h.entries p
  · rfl

theorem Unbuilt.adcUpdateDevSequence (h : Unbuilt d) : adcUpdateDevSequence d = none := by
  rw [SeqDev.adcUpdateDevSequence, h.entry_eq_none, Option.bind_none]

theorem sequence_ne_nil {active : Fin n → Bool} :
    0 < (sequence active).length ↔ ∃ id, active id = true := by
  rw [List.length_pos_iff_exists_mem]
  exact exists_congr fun id => mem_sequence

/-- A list, from its elements. -/
theorem filterMap_range_getElem? {α : Type} (xs : List α) :
    (List.range xs.length).filterMap (fun p => xs[p]?) = xs := by
  induction xs with
  | nil => rfl
  | cons x xs ih =>
      rw [List.length_cons, List.range_succ_eq_map, List.filterMap_cons_some (by rfl),
        List.filterMap_map]
      exact congrArg (List.cons x) ih

/-- The table after a rebuild. -/
def rebuilt (previd : Fin n) (d : SeqDev n) : SeqDev n :=
  { (rewrite previd d).1 with
    lastChActive := d.chActive
    seqCtr := (rewrite previd d).2
    forceReseq := false }

theorem listed_rebuilt (previd : Fin n) (hactive : ∃ id, d.chActive id = true) :
    Listed (rebuilt previd d) := by
  have hpos := sequence_ne_nil.mpr hactive
  rw [rebuilt, rewrite_eq]
  refine ⟨fun p _ => rfl, rfl, ?_, ?_⟩
  · intro p id _ hid
    obtain ⟨hp, rfl⟩ := List.getElem?_eq_some_iff.mp hid
    dsimp only
    rw [if_pos (mem_sequence.mp (List.getElem_mem hp))]
    exact (sequence_nodup d.chActive).idxOf_getElem p hp
  · dsimp only
    split
    · rename_i hmem
      exact List.idxOf_lt_length_of_mem hmem
    · exact hpos

/-- A rebuilt table is that of the sequence. -/
theorem listing_rebuilt (previd : Fin n) (d : SeqDev n)
    (hchange : d.chActive ≠ d.lastChActive ∨ d.forceReseq = true) :
    (rebuilt previd d).listing = Adc.adcUpdateDevSequence d.listing := by
  have habstract : Adc.adcUpdateDevSequence d.listing = _ := if_pos hchange
  rw [rebuilt, rewrite_eq, habstract]
  simp only [listing, filterMap_range_getElem?]
  rfl

theorem adcUpdateDevSequence_change (hprev : d.entry d.seqCtr = some previd)
    (hchange : d.chActive ≠ d.lastChActive ∨ d.forceReseq = true) :
    adcUpdateDevSequence d =
      if ∃ id, d.chActive id = true then some (rebuilt previd d) else none := by
  rw [adcUpdateDevSequence, hprev, Option.bind_some, if_pos hchange]
  dsimp only
  by_cases hactive : ∃ id, d.chActive id = true
  · have hpos := sequence_ne_nil.mpr hactive
    have hle := sequence_length_le d.chActive
    rw [if_pos hactive, platformAdcUpdateSequence_eq]
    · rw [Option.map_some, rebuilt, rewrite_eq]
    · rw [rewrite_eq]
      exact hpos
    · intro p hp
      rw [rewrite_eq] at hp ⊢
      dsimp only at hp
      rw [entry, if_pos (by omega)]
      dsimp only
      rw [List.getElem?_eq_getElem hp]
      exact Option.some_ne_none _
  · have hlen : (sequence d.chActive).length = 0 := by
      by_contra hne
      exact hactive (sequence_ne_nil.mp (Nat.pos_of_ne_zero hne))
    rw [if_neg hactive, platformAdcUpdateSequence_none, Option.map_none]
    · rw [rewrite_eq]
      exact hlen
    · rw [rewrite_eq, entry]
      split
      · exact List.getElem?_eq_none (by omega)
      · rfl

theorem Listed.built (h : Listed d) (hlast : d.lastChActive = d.chActive) : Built d := by
  have hactive := sequence_ne_nil.mp (Nat.lt_of_le_of_lt (Nat.zero_le _) (h.seqLen ▸ h.seqCtr))
  refine ⟨?_, ?_, h.valuePtr, h.seqCtr, fun _ => hactive⟩
  · rw [hlast]
    exact h.entries
  · rw [hlast]
    exact h.seqLen

/-- **An update** of a table that has been built: it lists the active channels, if there are
some, and goes through `NULL` if there are none. -/
theorem Built.adcUpdateDevSequence (h : Built d) :
    ((∃ id, d.chActive id = true) ∧ ∃ d', adcUpdateDevSequence d = some d' ∧ Listed d' ∧
      Built d' ∧ d'.chActive = d.chActive ∧ d'.running = d.running ∧
      d'.listing = Adc.adcUpdateDevSequence d.listing) ∨
    ((¬ ∃ id, d.chActive id = true) ∧ adcUpdateDevSequence d = none) := by
  obtain ⟨previd, hprev⟩ := Option.ne_none_iff_exists'.mp (h.entry_ne_none h.seqCtr)
  by_cases hchange : d.chActive ≠ d.lastChActive ∨ d.forceReseq = true
  · rw [adcUpdateDevSequence_change hprev hchange]
    by_cases hactive : ∃ id, d.chActive id = true
    · left
      rw [if_pos hactive]
      have hlisted := listed_rebuilt previd hactive
      have hsame : (rebuilt previd d).chActive = d.chActive ∧
          (rebuilt previd d).running = d.running := by
        rw [rebuilt, rewrite_eq]
        exact ⟨rfl, rfl⟩
      exact ⟨hactive, _, rfl, hlisted, hlisted.built hsame.1.symm, hsame.1, hsame.2,
        listing_rebuilt previd d hchange⟩
    · right
      exact ⟨hactive, if_neg hactive⟩
  · left
    have hlast : d.lastChActive = d.chActive := by
      by_contra hne
      exact hchange (.inl (Ne.symm hne))
    have hlisted : Listed d := by
      refine ⟨?_, ?_, h.valuePtr, h.seqCtr⟩
      · rw [← hlast]
        exact h.entries
      · rw [← hlast]
        exact h.seqLen
    have hactive : ∃ id, d.chActive id = true :=
      sequence_ne_nil.mp (Nat.lt_of_le_of_lt (Nat.zero_le _) (hlisted.seqLen ▸ h.seqCtr))
    refine ⟨hactive, d, ?_, hlisted, h, rfl, rfl, ?_⟩
    · rw [SeqDev.adcUpdateDevSequence, hprev, Option.bind_some, if_neg hchange]
    · exact (if_neg hchange).symm

/-! ## Interrupts -/

theorem platformAdcStop_listing (d : Dev n) (chState : List (Fin n)) (id : Fin n) :
    platformAdcStop { d with chState := chState } id =
      { platformAdcStop d id with chState := chState } := by
  by_cases hnone : ∀ i, Function.update d.chActive id false i = false
  · have hstop : platformAdcStop d id = _ := if_pos hnone
    rw [hstop]
    exact if_pos hnone
  · have hstop : platformAdcStop d id = _ := if_neg hnone
    rw [hstop]
    exact if_neg hnone

/-- What the table lists has no part in the handling of a sample. -/
theorem handleSample_listing (d : Dev n) (chState : List (Fin n)) (p : Nat) (id : Fin n)
    (v : UInt16) :
    handleSample { d with chState := chState } p id v =
      { handleSample d p id v with chState := chState } := by
  unfold handleSample
  dsimp only [Dev.set]
  generalize takeSample (Function.update d.sampleBuf p v) ((d.ch id).setFresh true) = s
  by_cases hcomplete : s.reqsamples.toNat ≤ adcSamplesAvailable s ∧ s.flags.freerunning = false
  · rw [if_pos hcomplete, if_pos hcomplete]
    exact platformAdcStop_listing { d with
      ch := Function.update d.ch id s, sampleBuf := Function.update d.sampleBuf p v } chState id
  · rw [if_neg hcomplete, if_neg hcomplete]

theorem handleSamples_listing (conversions : Fin n → UInt16) (d : Dev n)
    (chState : List (Fin n)) (p : Nat) (ids : List (Fin n)) :
    Adc.handleSamples conversions { d with chState := chState } p ids =
      { Adc.handleSamples conversions d p ids with chState := chState } := by
  induction ids generalizing d p with
  | nil => rfl
  | cons id ids ih => rw [Adc.handleSamples, handleSample_listing, ih, Adc.handleSamples]

/-- While the device runs there is an active channel. -/
def Busy (d : Dev n) : Prop := d.running = true → ∃ id, d.chActive id = true

theorem busy_platformAdcStop (d : Dev n) (id : Fin n) : Busy (platformAdcStop d id) := by
  intro hrunning
  unfold platformAdcStop at hrunning ⊢
  dsimp only at hrunning ⊢
  split at hrunning
  · cases hrunning
  · rename_i hsome
    rw [if_neg hsome]
    by_contra hnone
    apply hsome
    intro i
    exact Bool.eq_false_iff.mpr fun hi => hnone ⟨i, hi⟩

theorem Busy.handleSample {d : Dev n} (h : Busy d) (p : Nat) (id : Fin n) (v : UInt16) :
    Busy (handleSample d p id v) := by
  unfold Adc.handleSample
  dsimp only
  split
  · exact busy_platformAdcStop _ id
  · exact h

theorem Busy.handleSamples {d : Dev n} (h : Busy d) (conversions : Fin n → UInt16) (p : Nat)
    (ids : List (Fin n)) : Busy (Adc.handleSamples conversions d p ids) := by
  induction ids generalizing d p with
  | nil => exact h
  | cons id ids ih => exact ih (h.handleSample p id _) (p + 1)

/-- The loop of the handler, where the table has channels. -/
theorem handleSamples_eq {tmpbuff : Nat → UInt16} {conversions : Fin n → UInt16}
    {ids : List (Fin n)} {p : Nat}
    (hentry : ∀ i id, ids[i]? = some id →
      d.entry (p + i) = some id ∧ tmpbuff (p + i) = conversions id) :
    ∃ seqCtr, handleSamples tmpbuff d (List.range' p ids.length) =
      some { d with toDev := Adc.handleSamples conversions d.toDev p ids, seqCtr := seqCtr } := by
  induction ids generalizing d p with
  | nil => exact ⟨d.seqCtr, rfl⟩
  | cons id ids ih =>
      obtain ⟨hid, hconversion⟩ := hentry 0 id rfl
      rw [Nat.add_zero] at hid hconversion
      have hrest := @ih { d with
        toDev := Adc.handleSample d.toDev p id (tmpbuff p), seqCtr := p + 1 } (p + 1) (by
          intro i j hj
          have hnext := hentry (i + 1) j hj
          rw [← Nat.add_assoc, Nat.add_right_comm] at hnext
          exact hnext)
      obtain ⟨seqCtr, hseqCtr⟩ := hrest
      refine ⟨seqCtr, ?_⟩
      rw [List.length_cons, List.range'_succ, handleSamples, List.foldlM_cons, hid,
        Option.map_some, Adc.handleSamples, ← hconversion]
      exact hseqCtr

/-- **An interrupt** of a table that has been built follows no `NULL`, and handles the
channels of the sequence. -/
theorem Built.adcIntHandler (h : Built d) (tmpbuff : Nat → UInt16) :
    ∃ d', adcIntHandler tmpbuff d = some d' ∧ Built d' ∧ (d'.running = true → Listed d') ∧
      d'.listing = Adc.adcIntHandler d.listing fun id => tmpbuff (d.ch id).valuePtr := by
  have hle := sequence_length_le d.lastChActive
  have hlen := h.seqLen
  obtain ⟨seqCtr, hloop⟩ := @handleSamples_eq n { d with seqCtr := 0 } tmpbuff
    (fun id => tmpbuff (d.ch id).valuePtr) (sequence d.lastChActive) 0 (by
      intro i id hid
      obtain ⟨hi, -⟩ := List.getElem?_eq_some_iff.mp hid
      have hentry : d.entries i = some id := (h.entries i (by omega)).trans hid
      rw [Nat.zero_add, h.valuePtr i id (by omega) hentry, entry, if_pos (by omega)]
      exact ⟨hentry, rfl⟩)
  rw [← List.range_eq_range', ← hlen] at hloop
  rw [SeqDev.adcIntHandler, hloop, Option.bind_some]
  dsimp only
  generalize hafter : Adc.handleSamples (fun id => tmpbuff (d.ch id).valuePtr) d.toDev 0
    (sequence d.lastChActive) = after
  have hsame := sameSequence_handleSamples (fun id => tmpbuff (d.ch id).valuePtr) d.toDev 0
    (sequence d.lastChActive)
  have hbusy := Busy.handleSamples h.running (fun id => tmpbuff (d.ch id).valuePtr) 0
    (sequence d.lastChActive)
  rw [hafter] at hsame hbusy
  have hbuilt : Built { d with toDev := after, seqCtr := 0 } := by
    refine ⟨?_, ?_, ?_, Nat.lt_of_le_of_lt (Nat.zero_le _) h.seqCtr, hbusy⟩
    · rw [hsame.lastChActive]
      exact h.entries
    · rw [hsame.lastChActive]
      exact h.seqLen
    · intro p id hp hid
      exact (hsame.valuePtr id).trans (h.valuePtr p id hp hid)
  have hlist : (List.range d.seqLen).filterMap d.entries = sequence d.lastChActive := by
    rw [List.filterMap_congr fun p hp => h.entries p (by have := List.mem_range.mp hp; omega),
      hlen, filterMap_range_getElem?]
  have hlisting : ({ d with toDev := after, seqCtr := 0 } : SeqDev n).listing =
      Adc.handleSamples (fun id => tmpbuff (d.ch id).valuePtr) d.listing 0 d.listing.chState := by
    simp only [listing]
    rw [handleSamples_listing, hlist, hafter]
  have hafterRunning : (Adc.handleSamples (fun id => tmpbuff (d.ch id).valuePtr) d.listing 0
      d.listing.chState).running = after.running := by
    rw [← hlisting]
    rfl
  by_cases hrunning : after.running = true
  · rw [if_pos hrunning]
    rcases hbuilt.adcUpdateDevSequence with ⟨-, d', hd', hlisted, hbuilt', -, -, hupdate⟩ | ⟨hnone, -⟩
    · refine ⟨d', hd', hbuilt', fun _ => hlisted, ?_⟩
      rw [hupdate, hlisting]
      exact (if_pos (hafterRunning.trans hrunning)).symm
    · exact absurd (hbusy hrunning) hnone
  · rw [if_neg hrunning]
    refine ⟨_, rfl, hbuilt, fun hrun => absurd hrun hrunning, ?_⟩
    rw [hlisting]
    exact (if_neg fun hrun => hrunning (hafterRunning.symm.trans hrun)).symm

/-! ## Histories -/

inductive Action (n : Nat) where
  /-- What the main program does to a channel; only an update writes `value_ptr`. -/
  | change (id : Fin n) (s : Channel)
  | activate (id : Fin n)
  /-- `platform_adc_stop`. -/
  | stop (id : Fin n)
  | update
  | start
  | interrupt (tmpbuff : Nat → UInt16)

/-- The device, none when `NULL` has been followed, and the devices after the updates. -/
structure System (n : Nat) where
  dev : Option (SeqDev n)
  updated : List (SeqDev n)

/-- What an action does to the device. -/
def act (s : System n) (d : SeqDev n) : Action n → System n
  | .change id c =>
      ⟨some { d with toDev := d.set id { c with valuePtr := (d.ch id).valuePtr } }, s.updated⟩
  | .activate id => ⟨some { d with chActive := Function.update d.chActive id true }, s.updated⟩
  | .stop id => ⟨some { d with toDev := platformAdcStop d.toDev id }, s.updated⟩
  | .update => ⟨adcUpdateDevSequence d, s.updated ++ (adcUpdateDevSequence d).toList⟩
  | .start =>
      ⟨platformAdcStartSequence d,
        s.updated ++ if d.running then [] else (platformAdcStartSequence d).toList⟩
  | .interrupt tmpbuff =>
      ⟨adcIntHandler tmpbuff d,
        s.updated ++ (adcIntHandler tmpbuff d).toList.filter fun d => d.running⟩

/-- After `NULL` has been followed nothing happens. -/
def step (s : System n) (a : Action n) : Option (System n) := some (s.dev.elim s fun d => act s d a)

/-- No `NULL` has been followed, and every update has listed the active channels. -/
def Sound (s : System n) : Prop := s.dev.isSome = true ∧ ∀ d ∈ s.updated, Listed d

/-- An update is made only where it can be. -/
def UpdateOk (s : System n) : Action n → Prop
  | .update => ∀ d ∈ s.dev, Updatable d
  | .start => ∀ d ∈ s.dev, d.running = true ∨ Updatable d
  | .change _ _ | .activate _ | .stop _ | .interrupt _ => True

instance (s : System n) : (a : Action n) → Decidable (UpdateOk s a)
  | .update => inferInstanceAs (Decidable (∀ d ∈ s.dev, Updatable d))
  | .start => inferInstanceAs (Decidable (∀ d ∈ s.dev, d.running = true ∨ Updatable d))
  | .change _ _ | .activate _ | .stop _ | .interrupt _ => inferInstanceAs (Decidable True)

/-- The action updates the sequence, if the device does not run yet. -/
def Action.Updates : Action n → Prop
  | .update | .start => True
  | .change _ _ | .activate _ | .stop _ | .interrupt _ => False

/-- **An action on a device without a sequence.** -/
theorem Unbuilt.act_cases (h : Unbuilt d) (s : System n) (a : Action n) :
    (¬ a.Updates ∧ ∃ d', act s d a = ⟨some d', s.updated⟩ ∧ Unbuilt d') ∨
      (a.Updates ∧ act s d a = ⟨none, s.updated⟩ ∧ ¬ UpdateOk ⟨some d, s.updated⟩ a) := by
  have hupdatable : ¬ Updatable d := fun hup => hup.1 (h.entry_eq_none _)
  have hrunning : ¬ d.running = true := by
    rw [h.running]
    exact Bool.false_ne_true
  cases a with
  | change id c => exact .inl ⟨fun hf => hf, _, rfl, h.entries, h.seqLen, h.running⟩
  | activate id => exact .inl ⟨fun hf => hf, _, rfl, h.entries, h.seqLen, h.running⟩
  | stop id =>
      refine .inl ⟨fun hf => hf, _, rfl, h.entries, h.seqLen, ?_⟩
      exact Bool.eq_false_iff.mpr fun hrun => hrunning (running_of_platformAdcStop hrun)
  | update =>
      refine .inr ⟨trivial, ?_, fun hok => hupdatable (hok d rfl)⟩
      rw [SeqDev.act, h.adcUpdateDevSequence, Option.toList_none, List.append_nil]
  | start =>
      refine .inr ⟨trivial, ?_, fun hok => (hok d rfl).elim hrunning hupdatable⟩
      rw [SeqDev.act, platformAdcStartSequence, if_neg hrunning, if_neg hrunning,
        h.adcUpdateDevSequence, Option.map_none, Option.toList_none, List.append_nil]
  | interrupt tmpbuff =>
      refine .inl ⟨fun hf => hf, { d with seqCtr := 0 }, ?_, h.entries, h.seqLen, h.running⟩
      have hhandler : adcIntHandler tmpbuff d = some { d with seqCtr := 0 } := by
        rw [adcIntHandler, h.seqLen]
        exact if_neg hrunning
      have hfilter : [({ d with seqCtr := 0 } : SeqDev n)].filter (fun d => d.running) = [] := by
        rw [List.filter_singleton, h.running]
        rfl
      rw [SeqDev.act, hhandler, Option.toList_some, hfilter, List.append_nil]

/-- **An action on a device with a sequence.** -/
theorem Built.act_cases (h : Built d) (s : System n) (a : Action n) :
    (UpdateOk ⟨some d, s.updated⟩ a ∧ ∃ d' ds, act s d a = ⟨some d', s.updated ++ ds⟩ ∧
      Built d' ∧ ∀ d ∈ ds, Listed d) ∨
    (¬ UpdateOk ⟨some d, s.updated⟩ a ∧ (act s d a).dev = none) := by
  have hentry := h.entry_ne_none h.seqCtr
  have hkeep : ∀ d', act s d a = ⟨some d', s.updated⟩ → Built d' →
      ∃ d' ds, act s d a = ⟨some d', s.updated ++ ds⟩ ∧ Built d' ∧ ∀ d ∈ ds, Listed d := by
    intro d' hact hbuilt
    refine ⟨d', [], by rw [hact, List.append_nil], hbuilt, ?_⟩
    intro _ hmem
    cases hmem
  cases a with
  | change id c =>
      refine .inl ⟨trivial, hkeep _ rfl ⟨h.entries, h.seqLen, ?_, h.seqCtr, h.running⟩⟩
      intro p j hp hj
      rw [← h.valuePtr p j hp hj]
      exact (sameSequence_set d.toDev id (s := { c with valuePtr := (d.ch id).valuePtr })
        rfl).valuePtr j
  | activate id =>
      refine .inl ⟨trivial, hkeep _ rfl ⟨h.entries, h.seqLen, h.valuePtr, h.seqCtr, ?_⟩⟩
      intro _
      exact ⟨id, Function.update_self id true d.chActive⟩
  | stop id =>
      have hsame := sameSequence_platformAdcStop d.toDev id
      refine .inl ⟨trivial, hkeep _ rfl ⟨?_, ?_, ?_, h.seqCtr,
        busy_platformAdcStop d.toDev id⟩⟩
      · rw [hsame.lastChActive]
        exact h.entries
      · rw [hsame.lastChActive]
        exact h.seqLen
      · intro p j hp hj
        rw [← h.valuePtr p j hp hj]
        exact hsame.valuePtr j
  | update =>
      rcases h.adcUpdateDevSequence with ⟨hactive, d', hd', hlisted, hbuilt, -⟩ | ⟨hnone, hd'⟩
      · left
        refine ⟨?_, d', [d'], by rw [SeqDev.act, hd']; rfl, hbuilt, ?_⟩
        · intro d₁ hd₁
          obtain rfl := Option.some.inj hd₁
          exact ⟨hentry, hactive⟩
        · intro d₁ hd₁
          obtain rfl := List.mem_singleton.mp hd₁
          exact hlisted
      · right
        exact ⟨fun hok => hnone (hok d rfl).2, hd'⟩
  | start =>
      by_cases hrunning : d.running = true
      · left
        refine ⟨?_, hkeep d ?_ h⟩
        · intro d₁ hd₁
          obtain rfl := Option.some.inj hd₁
          exact .inl hrunning
        · rw [SeqDev.act, platformAdcStartSequence, if_pos hrunning, if_pos hrunning,
            List.append_nil]
      · rcases h.adcUpdateDevSequence with ⟨hactive, d', hd', hlisted, hbuilt, hch, -⟩ | ⟨hnone, hd'⟩
        · left
          refine ⟨?_, { d' with running := true }, [{ d' with running := true }], ?_,
            ⟨hbuilt.entries, hbuilt.seqLen, hbuilt.valuePtr, hbuilt.seqCtr, fun _ => ?_⟩, ?_⟩
          · intro d₁ hd₁
            obtain rfl := Option.some.inj hd₁
            exact .inr ⟨hentry, hactive⟩
          · rw [SeqDev.act, platformAdcStartSequence, if_neg hrunning, if_neg hrunning, hd']
            rfl
          · obtain ⟨id, hid⟩ := hactive
            exact ⟨id, (congrFun hch id).trans hid⟩
          · intro d₁ hd₁
            obtain rfl := List.mem_singleton.mp hd₁
            exact ⟨hlisted.entries, hlisted.seqLen, hlisted.valuePtr, hlisted.seqCtr⟩
        · right
          refine ⟨fun hok => (hok d rfl).elim hrunning fun hup => hnone hup.2, ?_⟩
          change platformAdcStartSequence d = none
          rw [platformAdcStartSequence, if_neg hrunning, hd', Option.map_none]
  | interrupt tmpbuff =>
      obtain ⟨d', hd', hbuilt, hlisted, -⟩ := h.adcIntHandler tmpbuff
      refine .inl ⟨trivial, d', [d'].filter fun d => d.running, ?_, hbuilt, ?_⟩
      · rw [SeqDev.act, hd']
        rfl
      · intro d₁ hd₁
        obtain ⟨hmem, hrun⟩ := List.mem_filter.mp hd₁
        obtain rfl := List.mem_singleton.mp hmem
        exact hlisted hrun

/-- All states of a run of actions are sound. -/
def AlwaysSound (d : SeqDev n) (actions : List (Action n)) : Prop :=
  ∀ k s, Transition.run step ⟨some d, []⟩ (actions.take k) = some s → Sound s

/-- With a sequence, an action is sound exactly if its update can be made. -/
theorem Built.step_iff (h : Built d) {ds : List (SeqDev n)} (hds : ∀ d ∈ ds, Listed d)
    (a : Action n) :
    ∃ s', step ⟨some d, ds⟩ a = some s' ∧
      (Sound s' → (∃ d', s'.dev = some d' ∧ Built d') ∧ ∀ d ∈ s'.updated, Listed d) ∧
      (Sound s' ↔ UpdateOk ⟨some d, ds⟩ a) := by
  refine ⟨SeqDev.act ⟨some d, ds⟩ d a, rfl, ?_⟩
  rcases h.act_cases ⟨some d, ds⟩ a with ⟨hok, d', ds', hact, hbuilt, hlisted⟩ | ⟨hok, hnone⟩
  · have hall : ∀ d ∈ ds ++ ds', Listed d := by
      intro d₁ hd₁
      rcases List.mem_append.mp hd₁ with hold | hnew
      · exact hds d₁ hold
      · exact hlisted d₁ hnew
    rw [hact]
    exact ⟨fun _ => ⟨⟨d', rfl, hbuilt⟩, hall⟩, iff_of_true ⟨rfl, hall⟩ hok⟩
  · have hunsound : ¬ Sound (SeqDev.act ⟨some d, ds⟩ d a) := by
      intro hsound
      have hsome := hsound.1
      rw [hnone] at hsome
      cases hsome
    exact ⟨fun hsound => absurd hsound hunsound, iff_of_false hunsound hok⟩

/-- Without a sequence, an action is sound exactly if it is no update. -/
theorem Unbuilt.step_iff (h : Unbuilt d) (a : Action n) :
    ∃ s', step ⟨some d, []⟩ a = some s' ∧
      (Sound s' → ∃ d', s' = ⟨some d', []⟩ ∧ Unbuilt d') ∧ (Sound s' ↔ ¬ a.Updates) := by
  refine ⟨SeqDev.act ⟨some d, []⟩ d a, rfl, ?_⟩
  rcases h.act_cases ⟨some d, []⟩ a with ⟨hno, d', hact, hunbuilt⟩ | ⟨hupdates, hact, -⟩
  · rw [hact]
    refine ⟨fun _ => ⟨d', rfl, hunbuilt⟩, iff_of_true ⟨rfl, ?_⟩ hno⟩
    intro _ hmem
    cases hmem
  · rw [hact]
    have hunsound : ¬ Sound (⟨none, []⟩ : System n) := fun hsound => by cases hsound.1
    exact ⟨fun hsound => absurd hsound hunsound, iff_of_false hunsound fun hno => hno hupdates⟩

theorem unbuilt_init (adcBufSize : Nat) (allocated : Fin n → Bool) (m : Fin n → Memory.Mem) :
    Unbuilt (init adcBufSize allocated m) :=
  ⟨fun _ => rfl, rfl, rfl⟩

theorem sound_nil (d : SeqDev n) : Sound ⟨some d, []⟩ := by
  refine ⟨rfl, ?_⟩
  intro _ hmem
  cases hmem

/-- **The table of the sequence.**  From the state after the initialisation, `NULL` is
followed by the first update.  Where a sequence has been built, no `NULL` is followed and
every update lists the active channels exactly if there always are some. -/
theorem alwaysSound_iff :
    (∀ adcBufSize (allocated : Fin n → Bool) m actions,
      AlwaysSound (init adcBufSize allocated m) actions ↔ ∀ a ∈ actions, ¬ a.Updates) ∧
    ∀ d : SeqDev n, Built d → ∀ actions,
      AlwaysSound d actions ↔ Transition.Conforming step UpdateOk ⟨some d, []⟩ actions := by
  constructor
  · intro adcBufSize allocated m actions
    have htotal : ∀ (s : System n) a, ∃ s', step s a = some s' := fun s a => ⟨_, rfl⟩
    rw [← Transition.conforming_const (p := fun a => ¬ a.Updates) htotal
      ⟨some (init adcBufSize allocated m), []⟩]
    apply @Transition.forall_states_iff _ _ _ _ (fun s => ∃ d', s = ⟨some d', []⟩ ∧ Unbuilt d')
    · intro s hs
      obtain ⟨d', rfl, -⟩ := hs
      exact sound_nil d'
    · intro s a hs
      obtain ⟨d', rfl, hunbuilt⟩ := hs
      exact hunbuilt.step_iff a
    · exact ⟨_, rfl, unbuilt_init adcBufSize allocated m⟩
  · intro d hd actions
    apply @Transition.forall_states_iff _ _ _ _
      (fun s => (∃ d', s.dev = some d' ∧ Built d') ∧ ∀ d ∈ s.updated, Listed d)
    · intro s hs
      obtain ⟨⟨d', hd', -⟩, hlisted⟩ := hs
      exact ⟨by rw [hd']; rfl, hlisted⟩
    · intro s a hs
      obtain ⟨dev, ds⟩ := s
      obtain ⟨⟨d', hd', hbuilt⟩, hlisted⟩ := hs
      obtain rfl : dev = some d' := hd'
      exact hbuilt.step_iff hlisted a
    · exact ⟨⟨d, rfl, hd⟩, (sound_nil d).2⟩

/-- The first sampling of a channel. -/
theorem not_alwaysSound_first : ¬ AlwaysSound
    (init 0 (fun _ => false) fun _ => ⟨fun _ => 0⟩ : SeqDev 4) [.activate 0, .start] := by
  intro h
  have hsound := h 2 _ rfl
  cases hsound.1

/-- A device that samples its first channel. -/
def builtDev : SeqDev 4 :=
  { (init 0 (fun _ => false) fun _ => ⟨fun _ => 0⟩ : SeqDev 4) with
    entries := fun p => if p = 0 then some ⟨0, by decide⟩ else none
    seqLen := 1
    chActive := fun id => id.val = 0
    lastChActive := fun id => id.val = 0 }

theorem built_builtDev : Built builtDev := by
  refine ⟨by decide, by decide, ?_, by decide, by decide⟩
  intro p id hp _
  obtain rfl : p = 0 := Nat.lt_one_iff.mp hp
  rfl

theorem alwaysSound_builtDev :
    AlwaysSound builtDev [.activate 2, .start, .interrupt fun _ => 5, .activate 1, .update] :=
  (alwaysSound_iff.2 builtDev built_builtDev _).mpr (by decide)

end SeqDev

end Adc
