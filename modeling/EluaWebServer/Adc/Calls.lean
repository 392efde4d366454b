import EluaWebServer.Adc.Device
import EluaWebServer.Charbuf.Interrupts
import EluaWebServer.Lib.Transition

/-!
# Reading samples under interrupts

The main program is in one of its calls, and an interrupt can come between any two of
its steps.  A step reads or writes shared memory once; what `buf_read` does is
the steps of `Charbuf`.  The calls that set up channels are not interrupted, and
`adc_smooth_data` is one step.
-/

namespace Adc

open Charbuf Charbuf.System

/-- Which of the calls of `adc_samples_available` in `adc_wait_samples` it is. -/
inductive Stage where
  | first
  | loop
  | last
  deriving DecidableEq

/-- Where the main program is, with the values of its variables: what it does next. -/
inductive Main (n : Nat) where
  | idle
  /-- In `adc_get_processed_sample`: the count of the buffer, `value_fresh`, then the sample. -/
  | getCount (id : Fin n)
  | getFresh (id : Fin n)
  | smooth (id : Fin n)
  | testFresh (id : Fin n)
  | loadValue (id : Fin n)
  | loadFlags (id : Fin n) (sample : UInt16)
  | storeFlags (id : Fin n) (sample : UInt16) (flags : Flags)
  | bufRead (id : Fin n) (reader : Reader)
  | testReq (id : Fin n) (sample : UInt16)
  | loadReq (id : Fin n) (sample : UInt16)
  | storeReq (id : Fin n) (sample : UInt16) (reqsamples : UInt16)
  /-- In `adc_wait_samples`. -/
  | waitCount (id : Fin n) (samples : Nat) (stage : Stage)
  | waitFresh (id : Fin n) (samples : Nat) (stage : Stage)
  | waitBlocking (id : Fin n) (samples : Nat)
  | waitPending (id : Fin n) (samples : Nat)

structure Sys (n : Nat) where
  dev : Dev n
  main : Main n

inductive Action (n : Nat) where
  | setup (id : Fin n) (logcount : Nat) (allocated : Bool)
  | start
  | smoothing (id : Fin n) (loglen : Nat) (allocated : Bool)
  | blocking (id : Fin n) (mode : Bool)
  | freerunning (id : Fin n) (mode : Bool)
  | getProcessedSample (id : Fin n)
  | waitSamples (id : Fin n) (samples : Nat)
  /-- The next step of the main program. -/
  | main
  | interrupt (conversions : Fin n → UInt16)

section

variable {n : Nat}

/-- After `adc_samples_available` in `adc_get_processed_sample`. -/
def afterAvailable (s : Channel) (id : Fin n) (available : Nat) : Main n :=
  if 0 < available then
    if 0 < s.logsmoothlen then
      if s.flags.smoothReady then .smooth id else .idle
    else .testFresh id
  else .idle

/-- After `adc_samples_available` in `adc_wait_samples`. -/
def afterWait (id : Fin n) (samples available : Nat) : Stage → Main n
  | .first => if available < samples then .waitBlocking id samples else .waitCount id samples .last
  | .loop => if available < samples then .waitPending id samples else .waitCount id samples .last
  | .last => .idle

/-- A step of `buf_read`, with the buffer and where the read is afterwards. -/
def bufReadStep (desc : BufDesc) (reader : Reader) : BufDesc × Reader :=
  let s := System.readStep ⟨desc, reader, [], []⟩
  (s.desc, s.reader)

/-- After a step of `buf_read`: it returns with the element, or without one. -/
def afterBufRead (id : Fin n) (reader reader' : Reader) : Main n :=
  match reader, reader' with
  | .decremented bs, _ => .testReq id (ofSample bs)
  | .entered _, .idle => .testReq id 0
  | _, reader' => .bufRead id reader'

/-- The next step of the main program. -/
def mainStep (s : Sys n) : Sys n :=
  let ch := s.dev.ch
  match s.main with
  | .idle => s
  | .getCount id =>
      if bufGetCount (ch id).desc = 0 then { s with main := .getFresh id }
      else { s with main := afterAvailable (ch id) id (bufGetCount (ch id).desc) }
  | .getFresh id => { s with main := afterAvailable (ch id) id (ch id).flags.valueFresh.toNat }
  | .smooth id =>
      let c := adcSmoothData s.dev.sampleBuf (ch id)
      ⟨s.dev.set id c, .testReq id (c.smoothsum >>> c.logsmoothlen.toUInt32).toUInt16⟩
  | .testFresh id =>
      { s with main := if (ch id).flags.valueFresh then .loadValue id else .bufRead id .idle }
  | .loadValue id => { s with main := .loadFlags id (s.dev.sampleBuf (ch id).valuePtr) }
  | .loadFlags id sample => { s with main := .storeFlags id sample (ch id).flags }
  | .storeFlags id sample flags =>
      ⟨s.dev.set id { ch id with flags := { flags with valueFresh := false } }, .testReq id sample⟩
  | .bufRead id reader =>
      let r := bufReadStep (ch id).desc reader
      ⟨s.dev.set id { ch id with desc := r.1 }, afterBufRead id reader r.2⟩
  | .testReq id sample =>
      { s with main := if 0 < (ch id).reqsamples then .loadReq id sample else .idle }
  | .loadReq id sample => { s with main := .storeReq id sample (ch id).reqsamples }
  | .storeReq id _ reqsamples =>
      ⟨s.dev.set id { ch id with reqsamples := reqsamples - 1 }, .idle⟩
  | .waitCount id samples stage =>
      if bufGetCount (ch id).desc = 0 then { s with main := .waitFresh id samples stage }
      else { s with main := afterWait id samples (bufGetCount (ch id).desc) stage }
  | .waitFresh id samples stage =>
      { s with main := afterWait id samples (ch id).flags.valueFresh.toNat stage }
  | .waitBlocking id samples =>
      { s with main := if (ch id).flags.blocking then .waitPending id samples
          else .waitCount id samples .last }
  | .waitPending id samples =>
      { s with main := if (ch id).flags.opPending then .waitCount id samples .loop
          else .waitCount id samples .last }

/-- A call of the main program. -/
def call (s : Sys n) (f : Dev n → Dev n) : Option (Sys n) :=
  match s.main with
  | .idle => some { s with dev := f s.dev }
  | _ => none

/-- An interrupt can come at any time, also one that was pending when the sequencer was
disabled. -/
def step (s : Sys n) : Action n → Option (Sys n)
  | .setup id logcount allocated => call s fun d => (adcSetupChannel d id logcount allocated).1
  | .start => call s platformAdcStartSequence
  | .smoothing id loglen allocated => call s fun d => adcUpdateSmoothing d id loglen allocated
  | .blocking id mode =>
      call s fun d =>
        let c := d.ch id
        d.set id { c with flags := { c.flags with blocking := mode } }
  | .freerunning id mode =>
      call s fun d =>
        let c := d.ch id
        d.set id { c with flags := { c.flags with freerunning := mode } }
  | .getProcessedSample id => (call s id').map fun s => { s with main := .getCount id }
  | .waitSamples id samples =>
      (call s id').map fun s => { s with main := .waitCount id samples .first }
  | .main => some (mainStep s)
  | .interrupt conversions => some { s with dev := adcIntHandler s.dev conversions }
where
  id' : Dev n → Dev n := fun d => d

end

end Adc
