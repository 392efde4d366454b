import EluaWebServer.Charbuf.Slots
import EluaWebServer.Lib.Word
import Mathlib.Data.Fintype.Pi
import Mathlib.Data.List.FinRange

/-!
# The analog to digital converter

The states of the channels and of the device, and what the interrupt handler does
with them.  A pointer to a sample is its index in `sample_buf`.  What only concerns the
hardware (triggers, and the steps of its sequencer, which are those of `ch_state`) has no
effect on the state; an interrupt brings one conversion of each channel of the sequence.
-/

namespace Adc

open Charbuf Memory

/-- The status bit flags of a channel, which share a byte. -/
structure Flags where
  opPending : Bool
  blocking : Bool
  freerunning : Bool
  smoothReady : Bool
  valueFresh : Bool
  deriving DecidableEq

/-- `elua_adc_ch_state`, and the buffer of the channel. -/
structure Channel where
  flags : Flags
  logsmoothlen : Nat
  smoothidx : Nat
  smoothsum : UInt32
  smoothbuf : Nat → UInt16
  reqsamples : UInt16
  valuePtr : Nat
  desc : BufDesc

/-- `elua_adc_dev_state`, and the states of the channels.  The sequence is `ch_state` up
to `seq_len`; a set of channels is its bits. -/
structure Dev (n : Nat) where
  ch : Fin n → Channel
  chState : List (Fin n)
  sampleBuf : Nat → UInt16
  forceReseq : Bool
  running : Bool
  chActive : Fin n → Bool
  lastChActive : Fin n → Bool

def BUF_DSIZE_U16 : Nat := 1

def Channel.setFresh (s : Channel) (fresh : Bool) : Channel :=
  { s with flags := { s.flags with valueFresh := fresh } }

/-- A sample as it lies in memory. -/
def sampleMem (v : UInt16) : Mem := ⟨fun i => (Word.bytes16 v).getD i 0⟩

/-- The sample that has been copied out of a buffer. -/
def ofSample (bs : List UInt8) : UInt16 := Word.ofBytes16 (bs.getD 0 0) (bs.getD 1 0)

/-- `adc_samples_available`, on one state of the channel. -/
def adcSamplesAvailable (s : Channel) : Nat :=
  let bufferCount := bufGetCount s.desc
  if bufferCount = 0 then s.flags.valueFresh.toNat else bufferCount

/-- Load oldest sample from the buffer, replace oldest value in smoothing ring buffer with
this new sample. -/
def adcSmoothData (sampleBuf : Nat → UInt16) (s : Channel) : Channel :=
  let s := if s.smoothidx = 2 ^ s.logsmoothlen then
      { s with smoothidx := 0, flags := { s.flags with smoothReady := true } }
    else s
  let smoothsum := s.smoothsum - (s.smoothbuf s.smoothidx).toUInt32
  let (sample, s) :=
    if s.flags.valueFresh then (sampleBuf s.valuePtr, s.setFresh false)
    else
      let (desc, _, bs) := bufRead s.desc
      (ofSample bs, { s with desc := desc })
  { s with
    smoothbuf := Function.update s.smoothbuf s.smoothidx sample
    smoothsum := smoothsum + sample.toUInt32
    smoothidx := s.smoothidx + 1 }

namespace Dev

variable {n : Nat} (d : Dev n)

def set (id : Fin n) (s : Channel) : Dev n :=
  { d with ch := Function.update d.ch id s }

end Dev

section

variable {n : Nat} (d : Dev n)

/-- Rewrite device sequence. -/
def adcUpdateDevSequence : Dev n :=
  if d.chActive ≠ d.lastChActive ∨ d.forceReseq = true then
    let seq := (List.finRange n).filter (d.chActive ·)
    { d with
      ch := fun id =>
        if d.chActive id then
          { (d.ch id).setFresh false with valuePtr := seq.idxOf id }
        else d.ch id
      chState := seq
      lastChActive := d.chActive
      forceReseq := false }
  else d

def platformAdcStop (id : Fin n) : Dev n :=
  let s := d.ch id
  let d := d.set id { s with flags := { s.flags with opPending := false } }
  let d := { d with chActive := Function.update d.chActive id false }
  -- If there are no more active channels, stop the sequencer
  if ∀ i, d.chActive i = false then { d with running := false } else d

/-- A channel that has a new sample: it is for the smoothing buffer until warmed up, or for
the buffer while more than one is requested. -/
def takeSample (sampleBuf : Nat → UInt16) (s : Channel) : Channel :=
  if 0 < s.logsmoothlen ∧ s.flags.smoothReady = false then adcSmoothData sampleBuf s
  else if 1 < s.reqsamples then
    ({ s with desc := (bufWrite s.desc (sampleMem (sampleBuf s.valuePtr))).1 }).setFresh false
  else s

/-- One round of the loop of `ADCIntHandler`. -/
def handleSample (seqCtr : Nat) (id : Fin n) (conversion : UInt16) : Dev n :=
  let d := { d with sampleBuf := Function.update d.sampleBuf seqCtr conversion }
  let s := takeSample d.sampleBuf ((d.ch id).setFresh true)
  let d := d.set id s
  -- If we have the number of requested samples, stop sampling
  if s.reqsamples.toNat ≤ adcSamplesAvailable s ∧ s.flags.freerunning = false then
    platformAdcStop d id
  else d

/-- The loop of `ADCIntHandler`, from `seq_ctr` on. -/
def handleSamples (conversions : Fin n → UInt16) (d : Dev n) (seqCtr : Nat) :
    List (Fin n) → Dev n
  | [] => d
  | id :: ids =>
      handleSamples conversions (handleSample d seqCtr id (conversions id)) (seqCtr + 1) ids

/-- `ADCIntHandler`, with the conversion of each channel. -/
def adcIntHandler (conversions : Fin n → UInt16) : Dev n :=
  let d := handleSamples conversions d 0 d.chState
  if d.running then adcUpdateDevSequence d else d

/-- What `adc_setup_channel` does to the buffer; `allocated` says whether `realloc` finds
memory. -/
def setupBuffer (desc : BufDesc) (logcount : Nat) (allocated : Bool) : BufDesc × Status :=
  if 2 ^ logcount ≠ bufGetSize desc then
    let r := bufSet desc logcount BUF_DSIZE_U16 allocated
    (if r.2 = .PLATFORM_OK then bufFlush r.1 else r.1, r.2)
  else (desc, .PLATFORM_OK)

/-- Set up channel in preparation for sample acquisition. -/
def adcSetupChannel (id : Fin n) (logcount : Nat) (allocated : Bool) : Dev n × Status :=
  let s := d.ch id
  let (desc, res) := setupBuffer s.desc logcount allocated
  if res = .PLATFORM_OK then
    let s := { s with
      desc := desc
      reqsamples := (2 ^ logcount).toUInt16
      flags := { s.flags with opPending := true } }
    ({ d.set id s with chActive := Function.update d.chActive id true }, res)
  else (d.set id { s with desc := desc }, res)

def platformAdcStartSequence : Dev n :=
  if d.running then d else { adcUpdateDevSequence d with running := true }

/-- Zero out and reset smoothing buffer. -/
def adcFlushSmoothing (s : Channel) : Channel :=
  let s := { s with smoothidx := 0, smoothsum := 0, flags := { s.flags with smoothReady := false } }
  if 0 < s.logsmoothlen then { s with smoothbuf := fun _ => 0 } else s

/-- Update smoothing buffer length.  If operations are pending, stop them. -/
def adcUpdateSmoothing (id : Fin n) (loglen : Nat) (allocated : Bool) : Dev n :=
  let d := if (d.ch id).flags.opPending then platformAdcStop d id else d
  let s := d.ch id
  if loglen ≠ s.logsmoothlen ∧ allocated = false then
    let s := { s with
      logsmoothlen := 0
      smoothidx := 0
      smoothsum := 0
      flags := { s.flags with smoothReady := false } }
    if loglen ≠ 0 then d.set id s
    else d.set id { adcFlushSmoothing s with desc := bufFlush s.desc }
  else
    let s := adcFlushSmoothing { s with logsmoothlen := loglen }
    d.set id { s with desc := bufFlush s.desc }

/-- Initialize channel configuration and buffers.  The smoothing buffer is `NULL`. -/
def adcInitChState (adcBufSize : Nat) (allocated : Bool) (m : Mem) : Channel :=
  { flags := ⟨false, true, false, false, false⟩
    logsmoothlen := 0
    smoothidx := 0
    smoothsum := 0
    smoothbuf := fun _ => 0
    reqsamples := 0
    valuePtr := 0
    desc := (bufSet (.fresh m) adcBufSize BUF_DSIZE_U16 allocated).1 }

/-- The device and its channels after `adcs_init`, where `realloc` has found memory for some
of the buffers. -/
def adcsInit (adcBufSize : Nat) (allocated : Fin n → Bool) (m : Fin n → Mem) : Dev n :=
  { ch := fun id => adcInitChState adcBufSize (allocated id) (m id)
    chState := []
    sampleBuf := fun _ => 0
    forceReseq := false
    running := false
    chActive := fun _ => false
    lastChActive := fun _ => false }

end

end Adc
