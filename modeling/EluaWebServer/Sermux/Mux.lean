import EluaWebServer.Sermux.Uart

/-!
# The serial multiplexer, PC side

The main loop of the `mux` program takes one byte at a time, either from the
transport, to be passed on to a service, or from a service, to be sent.  In
the combined mode the first service is the RFS server inside the program.
-/

namespace Sermux

/-- The mode and the number of service ports of the command line. -/
structure MuxConfig where
  rfsmux : Bool
  vportNum : Nat
  deriving DecidableEq, Repr

/-- Where the mux passes a byte on to. -/
inductive MuxService where
  | rfs
  | port (i : Nat)
  deriving DecidableEq, Repr

/-- `service_offset`. -/
def MuxConfig.serviceOffset (cfg : MuxConfig) : Nat := if cfg.rfsmux then 1 else 0

/-- `services[ service_id_in - SERMUX_SERVICE_ID_FIRST - service_offset ]` or
the RFS server; an index outside `services` is `none`. -/
def MuxConfig.service? (cfg : MuxConfig) (s : UInt8) : Option MuxService :=
  if cfg.rfsmux ∧ s = SERMUX_SERVICE_ID_FIRST then some .rfs
  else
    let i := (s.toNat : Int) - SERMUX_SERVICE_ID_FIRST.toNat - cfg.serviceOffset
    if 0 ≤ i ∧ i < cfg.vportNum then some (.port i.toNat) else none

/-- The service id that the mux sends for a service: the byte of the port's
index in the select call is `i + HND_FIRST_VOFFSET`. -/
def MuxConfig.serviceId (cfg : MuxConfig) : MuxService → UInt8
  | .rfs => SERMUX_SERVICE_ID_FIRST
  | .port i => SERMUX_SERVICE_ID_FIRST + (i + cfg.serviceOffset).toUInt8

/-- The variables `service_id_in`, `service_id_out`, `got_esc` and
`prev_sent`. -/
structure Mux where
  serviceIdIn : Option UInt8
  serviceIdOut : Option UInt8
  gotEsc : Bool
  prevSent : Option LastSent
  deriving DecidableEq, Repr

def Mux.init : Mux := ⟨none, none, false, none⟩

/-- Why the main loop ends, or goes wrong. -/
inductive MuxError where
  | noPrevSent
  | invalidEscape
  | serviceIndex
  deriving DecidableEq, Repr

/-- The loop's work on a byte of the transport. -/
def muxReceive (cfg : MuxConfig) (m : Mux) (c : UInt8) :
    Except MuxError (Mux × Effect MuxService) :=
  if c ≠ SERMUX_ESCAPE_CHAR then
    if SERMUX_SERVICE_ID_FIRST ≤ c && c ≤ SERMUX_SERVICE_ID_LAST then
      .ok ({ m with serviceIdIn := some c }, ⟨[], []⟩)
    else if c = SERMUX_FORCE_SID_CHAR then
      match m.prevSent with
      | none => .error .noPrevSent
      | some last =>
          .ok ({ m with prevSent := none }, ⟨sidByte m.serviceIdOut :: last.bytes, []⟩)
    else
      let d := if m.gotEsc then c ^^^ SERMUX_ESCAPE_XOR_MASK else c
      if m.gotEsc && !needsEscape d then .error .invalidEscape
      else
        let m := { m with gotEsc := false }
        match m.serviceIdIn with
        | none => .ok (m, ⟨[SERMUX_FORCE_SID_CHAR], []⟩)
        | some s =>
            match cfg.service? s with
            | none => .error .serviceIndex
            | some service => .ok (m, ⟨[], [(service, d)]⟩)
  else .ok ({ m with gotEsc := true }, ⟨[], []⟩)

/-- The loop's work on a byte of a service: the bytes sent on the transport. -/
def muxSend (cfg : MuxConfig) (m : Mux) (service : MuxService) (c : UInt8) :
    Mux × List UInt8 :=
  let temp := cfg.serviceId service
  let head := if m.serviceIdOut ≠ some temp then [temp] else []
  ({ m with prevSent := some (sentAs c), serviceIdOut := some temp },
    head ++ (sentAs c).bytes)

/-- Several bytes of services one after the other. -/
def muxSendAll (cfg : MuxConfig) (m : Mux) : List (MuxService × UInt8) → Mux × List UInt8
  | [] => (m, [])
  | (service, c) :: msgs =>
      let (m, out) := muxSend cfg m service c
      let (m, rest) := muxSendAll cfg m msgs
      (m, out ++ rest)

/-- Several bytes of the transport one after the other. -/
def muxReceiveAll (cfg : MuxConfig) (m : Mux) :
    List UInt8 → Except MuxError (Mux × Effect MuxService)
  | [] => .ok (m, ⟨[], []⟩)
  | c :: bytes => do
      let (m, e) ← muxReceive cfg m c
      let (m, r) ← muxReceiveAll cfg m bytes
      return (m, ⟨e.sent ++ r.sent, e.delivered ++ r.delivered⟩)

end Sermux
