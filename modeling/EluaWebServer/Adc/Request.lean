import EluaWebServer.Adc.Pointers

/-!
# Requests for samples

A request on one channel, with the conversions of the channel since then and the values
that reads have returned.  It is recorded next to the state, step by step.  A request
is served as long as the interrupts do not come at the wrong time, which `Timely` says
step by step.
-/

namespace Adc

open Charbuf Charbuf.System

variable {n : Nat}

/-- A request for `samples` samples of a channel. -/
structure Request where
  samples : Nat
  conversions : List UInt16
  values : List UInt16

/-- What the next step of the main program returns from `adc_get_processed_sample`. -/
def returned (id : Fin n) (s : Sys n) : List UInt16 :=
  match s.main with
  | .testReq j sample => if j = id ∧ (s.dev.ch j).reqsamples = 0 then [sample] else []
  | .storeReq j sample _ => if j = id then [sample] else []
  | _ => []

/-- The request on a channel after a step.  One that is free running, or on a channel with
smoothing, is not recorded. -/
def record (id : Fin n) (s : Sys n) (q : Option Request) : Action n → Option Request
  | .setup j logcount allocated =>
      if j = id then
        if (adcSetupChannel s.dev id logcount allocated).2 = .PLATFORM_OK ∧
            (s.dev.ch id).logsmoothlen = 0 ∧ (s.dev.ch id).flags.freerunning = false then
          some ⟨2 ^ logcount, [], []⟩
        else none
      else q
  | .smoothing j _ _ => if j = id then none else q
  | .freerunning j mode => if j = id ∧ mode = true then none else q
  | .main => q.map fun q => { q with values := q.values ++ returned id s }
  | .interrupt conversions =>
      q.map fun q =>
        if id ∈ s.dev.chState then { q with conversions := q.conversions ++ [conversions id] }
        else q
  | .start | .blocking _ _ | .getProcessedSample _ | .waitSamples _ _ => q

/-- A step, with the request on a channel. -/
def recordedStep (id : Fin n) (s : Sys n × Option Request) (a : Action n) :
    Option (Sys n × Option Request) :=
  (step s.1 a).map fun s' => (s', record id s.1 s.2 a)

/-- After `adcs_init`. -/
def recordedInit (adcBufSize : Nat) (allocated : Fin n → Bool) (m : Fin n → Memory.Mem) :
    Sys n × Option Request :=
  (⟨adcsInit adcBufSize allocated m, .idle⟩, none)

/-- The first values that are returned are the first conversions, and after them no sample
is left in the buffer or marked fresh. -/
def Acquired (id : Fin n) (s : Sys n × Option Request) : Prop :=
  ∀ q ∈ s.2, q.values.take q.samples <+: q.conversions ∧
    (q.samples ≤ q.values.length →
      bufGetCount (s.1.dev.ch id).desc = 0 ∧ (s.1.dev.ch id).flags.valueFresh = false)

/-! ## When interrupts come in time -/

/-- The sample that a call has removed while `reqsamples` still counts it. -/
def Main.removed : Main n → List UInt16
  | .loadFlags _ sample | .storeFlags _ sample _ | .testReq _ sample | .loadReq _ sample
  | .storeReq _ sample _ => [sample]
  | .bufRead _ reader => (held reader).map ofSample
  | _ => []

/-- The same for a channel. -/
def removed (id : Fin n) (main : Main n) : List UInt16 :=
  if main.channel = some id then main.removed else []

/-- The fresh sample has been loaded, and is still marked. -/
def Main.loaded : Main n → Bool
  | .loadFlags _ _ | .storeFlags _ _ _ => true
  | _ => false

/-- The same for a channel. -/
def loaded (id : Fin n) (main : Main n) : Bool := decide (main.channel = some id) && main.loaded

/-- The main program is about to look at `value_fresh`. -/
def Main.looking : Main n → Bool
  | .getFresh _ => true
  | _ => false

/-- A request has no more than 32768 samples, and a buffer of the same size has nothing left
in it.  A mark that is left from an earlier request is not looked at.  No interrupt that comes
after the sequencer was stopped handles a channel that is complete, the last conversion does
not come between the removal of a sample and the decrement of `reqsamples`, and until the
fresh sample is loaded no interrupt handles a sequence that reaches its place. -/
def Timely (id : Fin n) (s : Sys n × Option Request) : Action n → Prop
  | .setup j logcount _ =>
      j = id → logcount ≤ 15 ∧
        (bufGetSize (s.1.dev.ch id).desc = 2 ^ logcount → bufGetCount (s.1.dev.ch id).desc = 0)
  | .main =>
      s.1.main.channel = some id → s.1.main.looking = true → ∀ q ∈ s.2, q.conversions = [] →
        (s.1.dev.ch id).flags.valueFresh = false
  | .interrupt _ =>
      ∀ q ∈ s.2,
        (id ∈ s.1.dev.chState → s.1.dev.running = false → s.1.dev.chActive id = true) ∧
        (id ∈ s.1.dev.chState → removed id s.1.main ≠ [] → q.conversions.length + 1 < q.samples) ∧
        ((s.1.dev.ch id).flags.valueFresh = true → q.conversions ≠ [] → loaded id s.1.main = false →
          s.1.dev.chState.length ≤ (s.1.dev.ch id).valuePtr)
  | _ => True

instance (id : Fin n) (s : Sys n × Option Request) : (a : Action n) → Decidable (Timely id s a)
  | .setup j logcount _ =>
      inferInstanceAs (Decidable (j = id → logcount ≤ 15 ∧
        (bufGetSize (s.1.dev.ch id).desc = 2 ^ logcount → bufGetCount (s.1.dev.ch id).desc = 0)))
  | .main =>
      inferInstanceAs (Decidable (s.1.main.channel = some id → s.1.main.looking = true →
        ∀ q ∈ s.2, q.conversions = [] → (s.1.dev.ch id).flags.valueFresh = false))
  | .interrupt _ =>
      inferInstanceAs (Decidable (∀ q ∈ s.2,
        (id ∈ s.1.dev.chState → s.1.dev.running = false → s.1.dev.chActive id = true) ∧
        (id ∈ s.1.dev.chState → removed id s.1.main ≠ [] → q.conversions.length + 1 < q.samples) ∧
        ((s.1.dev.ch id).flags.valueFresh = true → q.conversions ≠ [] → loaded id s.1.main = false →
          s.1.dev.chState.length ≤ (s.1.dev.ch id).valuePtr)))
  | .start | .smoothing _ _ _ | .blocking _ _ | .freerunning _ _ | .getProcessedSample _
  | .waitSamples _ _ => inferInstanceAs (Decidable True)

/-! ## The invariant of a request -/

/-- What a request depends on: the channel, whether it is active, whether the device is running
and brings conversions of it, its place in `sample_buf`, and the main program. -/
structure View (n : Nat) where
  channel : Channel
  active : Bool
  sampled : Bool
  value : UInt16
  main : Main n

def view (id : Fin n) (s : Sys n) : View n where
  channel := s.dev.ch id
  active := s.dev.chActive id
  sampled := s.dev.running && decide (id ∈ s.dev.chState)
  value := s.dev.sampleBuf (s.dev.ch id).valuePtr
  main := s.main

/-- The samples in the buffer, in the order of the conversions.  For a single sample the
buffer is not used, and it may be disabled. -/
def Buffered (p : BufDesc) (reader : Reader) (samples : Nat) (waiting : List UInt16) : Prop :=
  (samples = 1 ∧ waiting = [] ∧ p.count = 0) ∨
    ∃ r unread, Reading p reader r unread ∧ p.slots = samples ∧ p.logdsize = BUF_DSIZE_U16 ∧
      waiting = unread.map (fun e => ofSample e.2)

/-- A sample of the request is marked fresh. -/
def Fresh (c : Channel) (q : Request) : Prop := q.conversions ≠ [] ∧ c.flags.valueFresh = true

/-- What the main program has found out, in a call for the channel. -/
def Found (c : Channel) (q : Request) (waiting : List UInt16) : Main n → Prop
  | .testFresh _ => waiting ≠ [] ∨ Fresh c q
  | .loadValue _ | .loadFlags _ _ => Fresh c q
  | .storeFlags _ _ flags => Fresh c q ∧ flags.freerunning = false
  | .bufRead _ reader => held reader = [] → waiting ≠ []
  | .storeReq _ _ reqsamples => reqsamples = c.reqsamples
  | .smooth _ => False
  | _ => True

/-- The fresh sample, unless it has been loaded. -/
def freshSample (id : Fin n) (v : View n) (q : Request) : List UInt16 :=
  if q.conversions ≠ [] ∧ v.channel.flags.valueFresh = true ∧ loaded id v.main = false then
    [v.value]
  else []

/-- A request that is being served.  The conversions are the values returned, the sample that
is removed, those waiting in the buffer and the fresh one, in this order. -/
structure Serving (id : Fin n) (v : View n) (q : Request) (waiting : List UInt16) : Prop where
  smoothing : v.channel.logsmoothlen = 0
  freerunning : v.channel.flags.freerunning = false
  reqsamples : v.channel.reqsamples.toNat + q.values.length = q.samples
  samples : 0 < q.samples
  active : v.active = true ↔ q.conversions.length < q.samples
  sampled : v.sampled = true → v.active = true
  enough : q.conversions.length ≤ q.samples
  conversions : q.conversions = q.values ++ removed id v.main ++ waiting ++ freshSample id v q
  fresh : Fresh v.channel q → q.values.length + 1 = q.samples ∧ q.conversions.length = q.samples
  buffered : Buffered v.channel.desc (readerOf id v.main) q.samples waiting
  found : v.main.channel = some id → Found v.channel q waiting v.main

end Adc
