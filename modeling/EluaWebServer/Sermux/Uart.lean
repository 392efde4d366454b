import Mathlib.Data.List.Basic

/-!
# The serial multiplexer, eLua side

One physical serial line carries the bytes of up to eight services.  A byte
in `0xD0 .. 0xD7` names the service that the following bytes belong to, the
escape character announces a data byte that looks like a control byte, and
the force character asks the peer to send its service id and its last byte
again.  The C variables with the value -1 for "not set" are options.
-/

namespace Sermux

def SERMUX_SERVICE_ID_FIRST : UInt8 := 0xD0
def SERMUX_SERVICE_ID_LAST : UInt8 := 0xD7
def SERMUX_SERVICE_MAX : Nat := 8

def SERMUX_ESCAPE_CHAR : UInt8 := 0xC0
def SERMUX_FORCE_SID_CHAR : UInt8 := 0xFF

def SERMUX_ESCAPE_XOR_MASK : UInt8 := 0x20

/-- The data byte is sent escaped. -/
def needsEscape (data : UInt8) : Bool :=
  data = SERMUX_ESCAPE_CHAR || data = SERMUX_FORCE_SID_CHAR ||
    (SERMUX_SERVICE_ID_FIRST ≤ data && data ≤ SERMUX_SERVICE_ID_LAST)

/-- The last data byte as it was sent: `esc` is the bit `SERMUX_ESC_MASK`. -/
structure LastSent where
  esc : Bool
  char : UInt8
  deriving DecidableEq, Repr

/-- The bytes of a data byte on the line. -/
def LastSent.bytes (l : LastSent) : List UInt8 :=
  if l.esc then [SERMUX_ESCAPE_CHAR, l.char] else [l.char]

/-- How a data byte is sent and remembered. -/
def sentAs (data : UInt8) : LastSent :=
  if needsEscape data then ⟨true, data ^^^ SERMUX_ESCAPE_XOR_MASK⟩ else ⟨false, data⟩

/-- A service id variable converted to a byte: -1 is `0xFF`. -/
def sidByte : Option UInt8 → UInt8
  | none => 0xFF
  | some s => s

/-- The variables `uart_service_id_in`, `uart_service_id_out`, `uart_got_esc`
and `uart_last_sent`. -/
structure Uart where
  serviceIdIn : Option UInt8
  serviceIdOut : Option UInt8
  gotEsc : Bool
  lastSent : Option LastSent
  deriving DecidableEq, Repr

/-- The initial values. -/
def Uart.init : Uart := ⟨none, none, false, none⟩

/-- What handling one byte does: the bytes sent on the physical UART and the
byte put into the buffer of a virtual UART. -/
structure Effect (Service : Type) where
  sent : List UInt8
  delivered : List (Service × UInt8)
  deriving DecidableEq, Repr

/-- The service ids of the `SERMUX_NUM_VUART` virtual UARTs. -/
def isVuart (numVuart : Nat) (data : UInt8) : Bool :=
  SERMUX_SERVICE_ID_FIRST ≤ data &&
    data.toNat < SERMUX_SERVICE_ID_FIRST.toNat + numVuart

/-- `cmn_rx_handler` for a byte received on the physical UART. -/
def cmnRxHandler (numVuart : Nat) (u : Uart) (data : UInt8) : Uart × Effect UInt8 :=
  if data ≠ SERMUX_ESCAPE_CHAR then
    if isVuart numVuart data then
      ({ u with serviceIdIn := some data }, ⟨[], []⟩)
    else
      match (if data = SERMUX_FORCE_SID_CHAR then u.lastSent else none) with
      | some last =>
          ({ u with lastSent := none }, ⟨sidByte u.serviceIdOut :: last.bytes, []⟩)
      | none =>
          -- with nothing to retransmit the force character counts as data
          let c := if u.gotEsc then data ^^^ SERMUX_ESCAPE_XOR_MASK else data
          let u := { u with gotEsc := false }
          match u.serviceIdIn with
          | none => (u, ⟨[SERMUX_FORCE_SID_CHAR], []⟩)
          | some s => (u, ⟨[], [(s, c)]⟩)
  else ({ u with gotEsc := true }, ⟨[], []⟩)

/-- `platform_uart_send` on a virtual UART, when no interrupt runs in it: the
bytes sent on the physical UART. -/
def platformUartSend (u : Uart) (id data : UInt8) : Uart × List UInt8 :=
  let head := if u.serviceIdOut ≠ some id then [id] else []
  ({ u with lastSent := some (sentAs data), serviceIdOut := some id },
    head ++ (sentAs data).bytes)

/-- Several sends one after the other. -/
def platformUartSendAll (u : Uart) : List (UInt8 × UInt8) → Uart × List UInt8
  | [] => (u, [])
  | (id, data) :: msgs =>
      let (u, out) := platformUartSend u id data
      let (u, rest) := platformUartSendAll u msgs
      (u, out ++ rest)

/-- Several received bytes one after the other. -/
def cmnRxHandlerAll (numVuart : Nat) (u : Uart) : List UInt8 → Uart × Effect UInt8
  | [] => (u, ⟨[], []⟩)
  | data :: bytes =>
      let (u, e) := cmnRxHandler numVuart u data
      let (u, r) := cmnRxHandlerAll numVuart u bytes
      (u, ⟨e.sent ++ r.sent, e.delivered ++ r.delivered⟩)

end Sermux
