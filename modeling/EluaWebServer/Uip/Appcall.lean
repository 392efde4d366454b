import EluaWebServer.Lib.Buffer

/-!
# The application of the TCP/IP stack

uIP calls `elua_uip_appcall` from the Ethernet interrupt with what has happened on a
connection.  The services (`elua_net_send` and the others) fill in the state of the
connection and wait until it is idle.
-/

namespace Uip

open Buffer

def ELUA_NET_ERR_OK : UInt8 := 0
def ELUA_NET_ERR_TIMEDOUT : UInt8 := 1
def ELUA_NET_ERR_CLOSED : UInt8 := 2
def ELUA_NET_ERR_ABORTED : UInt8 := 3
def ELUA_NET_ERR_OVERFLOW : UInt8 := 4

def ELUA_NET_TELNET_PORT : UInt16 := 23
def ELUA_NET_NO_LASTCHAR : Int := -1

def TELNET_IAC_CHAR : UInt8 := 255
def TELNET_IAC_3B_FIRST : UInt8 := 251
def TELNET_IAC_3B_LAST : UInt8 := 254
def TELNET_EOF : UInt8 := 236
def STD_CTRLZ_CODE : UInt8 := 26

inductive AppState where
  | ELUA_UIP_STATE_IDLE
  | ELUA_UIP_STATE_SEND
  | ELUA_UIP_STATE_RECV
  | ELUA_UIP_STATE_RECV_2
  | ELUA_UIP_STATE_CONNECT
  | ELUA_UIP_STATE_CLOSE
  deriving DecidableEq

open AppState

/-- What `ptr` points to. -/
inductive Ptr where
  | null
  /-- What is to be sent, from `ptr` on. -/
  | data (bytes : List UInt8)
  /-- A buffer to receive in, and the place of `ptr` in it. -/
  | buffer (mem : List UInt8) (p : Nat)
  /-- A `luaL_Buffer`, with what has been added to it. -/
  | luaBuffer (added : List UInt8)
  deriving DecidableEq

/-- `struct elua_uip_state`. -/
structure EluaUipState where
  state : AppState
  res : UInt8
  ptr : Ptr
  len : Int
  readto : Int
  deriving DecidableEq

/-- What uIP calls the application for: the flags, the bytes from `uip_appdata` to the
end of the packet buffer, `uip_datalen()` and `uip_mss()`. -/
structure Event where
  connected : Bool
  aborted : Bool
  timedout : Bool
  closed : Bool
  acked : Bool
  rexmit : Bool
  poll : Bool
  newdata : Bool
  lport : UInt16
  ripaddr : UInt16 × UInt16
  appdata : List UInt8
  datalen : Nat
  mss : Nat
  datalen_le : datalen ≤ appdata.length

/-- What the application asks of uIP. -/
inductive UipCall where
  | stop
  | restart
  | close
  | send (bytes : List UInt8)
  deriving DecidableEq

/-- How the program is built. -/
structure Config where
  /-- `BUILD_CON_TCP` -/
  conTcp : Bool
  /-- Whether `char` is signed. -/
  charSigned : Bool
  UIP_RECEIVE_WINDOW : Nat
  /-- The room behind `uip_sappdata`. -/
  sappdataSize : Nat

structure World where
  configured : Bool
  telnetSocket : Int
  acceptRequest : Bool
  acceptSock : Int
  acceptRemote : UInt16 × UInt16
  socket : Nat → EluaUipState

def World.set (w : World) (sockno : Nat) (s : EluaUipState) : World :=
  { w with socket := Function.update w.socket sockno s }

/-- The telnet socket, which is -1 when there is none. -/
def World.isTelnet (c : Config) (w : World) (sockno : Nat) : Bool :=
  c.conTcp && decide (w.telnetSocket = sockno)

/-- A `char` as an `int`. -/
def charValue (c : Config) (b : UInt8) : Int :=
  if c.charSigned && decide (128 ≤ b.toNat) then (b.toNat : Int) - 256 else b.toNat

/-! ## Telnet -/

/-- The loop of `elua_uip_telnet_handle_input` from byte `i` on. -/
def telnetLoop (e : Event) (maxsize : Int) (orig : Nat) :
    Nat → Nat → List UInt8 → Nat → Option (List UInt8 × Nat)
  | 0, _, mem, p => some (mem, p)
  | n + 1, i, mem, p =>
      if i < e.datalen ∧ ((p - orig : Nat) : Int) < maxsize then
        (e.appdata[i]?).bind fun d =>
          if d ≠ TELNET_IAC_CHAR then
            (store mem p d).bind fun mem => telnetLoop e maxsize orig n (i + 1) mem (p + 1)
          else
            (e.appdata[i + 1]?).bind fun d =>
              if TELNET_IAC_3B_FIRST ≤ d ∧ d ≤ TELNET_IAC_3B_LAST then
                telnetLoop e maxsize orig n (i + 3) mem p
              else if d = TELNET_EOF then
                (store mem p STD_CTRLZ_CODE).bind fun mem =>
                  telnetLoop e maxsize orig n (i + 2) mem (p + 1)
              else telnetLoop e maxsize orig n (i + 2) mem p
      else some (mem, p)

/-- Each turn of the loop skips a byte at least. -/
def eluaUipTelnetHandleInput (s : EluaUipState) (e : Event) :
    Option (EluaUipState × List UipCall) :=
  match s.ptr with
  | .buffer mem orig =>
      (telnetLoop e s.len orig e.datalen 0 mem orig).map fun (mem, p) =>
        let s := { s with ptr := .buffer mem p }
        if orig < p then
          ({ s with
            res := ELUA_NET_ERR_OK
            len := s.len - (p - orig : Nat)
            state := ELUA_UIP_STATE_IDLE }, [.stop])
        else (s, [])
  | _ => none

/-- Newlines with carriage returns, in the packet buffer. -/
def eluaUipTelnetPrepSend (c : Config) (src : List UInt8) : Option (List UInt8) :=
  let bytes := src.flatMap fun b => if b = 10 then [13, b] else [b]
  if bytes.length ≤ c.sappdataSize then some bytes else none

/-! ## The application -/

/-- The first `n` bytes from `ptr` on. -/
def Ptr.read (n : Int) : Ptr → Option (List UInt8)
  | .data bytes => if n ≤ bytes.length then some (bytes.take n.toNat) else none
  | _ => none

/-- `ptr += n`. -/
def Ptr.advance (n : Int) : Ptr → Ptr
  | .data bytes => .data (bytes.drop n.toNat)
  | ptr => ptr

/-- `UMIN( len, mss )`. -/
def umin (len : Int) (mss : Nat) : Int := if len ≤ mss then len else mss

/-- Data send. -/
def handleSend (c : Config) (telnet : Bool) (s : EluaUipState) (e : Event) :
    Option (EluaUipState × List UipCall) :=
  let s :=
    if e.acked then
      let minlen := umin s.len e.mss
      { s with
        len := s.len - minlen
        ptr := s.ptr.advance minlen
        state := if s.len - minlen = 0 then ELUA_UIP_STATE_IDLE else s.state }
    else s
  if 0 < s.len then
    if telnet then
      ((s.ptr.read s.len).bind (eluaUipTelnetPrepSend c)).map fun bytes => (s, [.send bytes])
    else (s.ptr.read (umin s.len e.mss)).map fun bytes => (s, [.send bytes])
  else some (s, [])

/-- A character that is received.  With `res` set, `ptr` is taken for a `luaL_Buffer`. -/
def putChar (res : UInt8) (dest : Nat) (ch : UInt8) : Ptr → Option Ptr
  | .luaBuffer added => if res ≠ 0 then some (.luaBuffer (added ++ [ch])) else none
  | .buffer mem p => if res = 0 then (store mem dest ch).map fun mem => .buffer mem p else none
  | _ => none

/-- The loop that looks for the `readto` character: whether it is found. -/
def readtoLoop (c : Config) (res : UInt8) (readto : Int) (dest : Nat) :
    List UInt8 → Ptr → Int → Option (Ptr × Int × Bool)
  | [], ptr, len => some (ptr, len, false)
  | ch :: rest, ptr, len =>
      if charValue c ch = readto then some (ptr, len, true)
      else if ch ≠ 13 then
        (putChar res dest ch ptr).bind fun ptr =>
          readtoLoop c res readto (dest + 1) rest ptr (len - 1)
      else readtoLoop c res readto dest rest ptr len

/-- `luaL_addlstring` or `memcpy`. -/
def putAll (res : UInt8) (bytes : List UInt8) : Ptr → Option Ptr
  | .luaBuffer added => if res ≠ 0 then some (.luaBuffer (added ++ bytes)) else none
  | .buffer mem p =>
      if res = 0 then (storeAll mem p bytes).map fun mem => .buffer mem p else none
  | _ => none

/-- Where `ptr` points to in a buffer. -/
def Ptr.offset : Ptr → Nat
  | .buffer _ p => p
  | _ => 0

/-- Data receive. -/
def handleReceive (c : Config) (s : EluaUipState) (e : Event) :
    Option (EluaUipState × List UipCall) :=
  let short := decide (e.datalen < c.UIP_RECEIVE_WINDOW)
  let overflow := s.len < e.datalen
  let s := if overflow then { s with res := ELUA_NET_ERR_OVERFLOW } else s
  let temp : Int := if overflow then s.len else e.datalen
  let copied :=
    if s.readto ≠ ELUA_NET_NO_LASTCHAR then
      (readtoLoop c s.res s.readto s.ptr.offset (e.appdata.take temp.toNat) s.ptr s.len).map
        fun (ptr, len, found) => ({ s with ptr := ptr, len := len }, short || found)
    else if temp < 0 then none
    else
      (putAll s.res (e.appdata.take temp.toNat) s.ptr).map fun ptr =>
        ({ s with ptr := ptr, len := s.len - temp }, short)
  copied.map fun (s, lastfound) =>
    if s.len = 0 ∨ lastfound then
      ({ s with res := ELUA_NET_ERR_OK, state := ELUA_UIP_STATE_IDLE }, [.stop])
    else (s, [])

/-- The error of a terminal event. -/
def terminalError (e : Event) : UInt8 :=
  if e.aborted then ELUA_NET_ERR_ABORTED
  else if e.timedout then ELUA_NET_ERR_TIMEDOUT
  else ELUA_NET_ERR_CLOSED

/-- uIP reports that the connection is gone. -/
def Event.terminal (e : Event) : Bool := e.aborted || e.timedout || e.closed

/-- `elua_uip_appcall` for an event of connection `sockno`.  There is no result when
memory is accessed that is not there, or not of the type it is taken for. -/
def eluaUipAppcall (c : Config) (w : World) (sockno : Nat) (e : Event) :
    Option (World × List UipCall) :=
  if !w.configured then some (w, [])
  else
    let s := w.socket sockno
    if e.connected then
      if c.conTcp ∧ e.lport = ELUA_NET_TELNET_PORT then
        if w.telnetSocket ≠ -1 then some (w, [.close])
        else some ({ w with telnetSocket := sockno }, [.stop])
      else if w.acceptRequest then
        some ({ w with
          acceptSock := sockno
          acceptRemote := e.ripaddr
          acceptRequest := false }, [.stop])
      else if s.state = ELUA_UIP_STATE_CONNECT then
        some (w.set sockno { s with state := ELUA_UIP_STATE_IDLE }, [.stop])
      else some (w, [.stop])
    else if s.state = ELUA_UIP_STATE_IDLE then some (w, [])
    else if s.state = ELUA_UIP_STATE_RECV then
      some (w.set sockno { s with state := ELUA_UIP_STATE_RECV_2 }, [.restart])
    else if e.terminal then
      let telnetSocket := if w.isTelnet c sockno then -1 else w.telnetSocket
      some ({ w with telnetSocket := telnetSocket }.set sockno
        { s with res := terminalError e, state := ELUA_UIP_STATE_IDLE }, [])
    else if (e.acked || e.rexmit || e.poll) && decide (s.state = ELUA_UIP_STATE_SEND) then
      (handleSend c (w.isTelnet c sockno) s e).map fun (s, calls) => (w.set sockno s, calls)
    else if s.state = ELUA_UIP_STATE_CLOSE then
      some (w.set sockno { s with state := ELUA_UIP_STATE_IDLE }, [.close])
    else if e.newdata then
      if s.state = ELUA_UIP_STATE_RECV_2 then
        (if w.isTelnet c sockno then eluaUipTelnetHandleInput s e else handleReceive c s e).map
          fun (s, calls) => (w.set sockno s, calls)
      else some (w, [.stop])
    else some (w, [])

/-! ## Services -/

/-- `elua_prep_socket_state`. -/
def eluaPrepSocketState (ptr : Ptr) (len readto : Int) (res : UInt8) (state : AppState) :
    EluaUipState :=
  ⟨state, res, ptr, len, readto⟩

/-- What `elua_net_send` fills in. -/
def prepSend (buf : List UInt8) : EluaUipState :=
  eluaPrepSocketState (.data buf) buf.length ELUA_NET_NO_LASTCHAR ELUA_NET_ERR_OK
    ELUA_UIP_STATE_SEND

/-- What `elua_net_recv` and `elua_net_recvbuf` fill in. -/
def prepRecv (ptr : Ptr) (maxsize readto : Int) (withBuffer : Bool) : EluaUipState :=
  eluaPrepSocketState ptr maxsize readto (if withBuffer then 1 else 0) ELUA_UIP_STATE_RECV

/-- What `elua_net_close` fills in. -/
def prepClose : EluaUipState :=
  eluaPrepSocketState .null 0 ELUA_NET_NO_LASTCHAR ELUA_NET_ERR_OK ELUA_UIP_STATE_CLOSE

/-- What `elua_net_connect` fills in. -/
def prepConnect : EluaUipState :=
  eluaPrepSocketState .null 0 ELUA_NET_NO_LASTCHAR ELUA_NET_ERR_OK ELUA_UIP_STATE_CONNECT

/-! ## What one call does -/

section

variable {c : Config} {w : World} {sockno : Nat} {e : Event}

theorem set_eq_self {s : EluaUipState} (hs : w.socket sockno = s) : w.set sockno s = w := by
  rw [World.set, ← hs, Function.update_eq_self]

theorem socket_set (w : World) (sockno : Nat) (s : EluaUipState) :
    (w.set sockno s).socket sockno = s :=
  Function.update_self _ _ _

theorem appcall_idle (hconnected : e.connected = false)
    (hs : (w.socket sockno).state = ELUA_UIP_STATE_IDLE) :
    eluaUipAppcall c w sockno e = some (w, []) := by
  unfold eluaUipAppcall
  cases w.configured <;> simp [hconnected, hs]

/-- The first event after a receive has been asked for, whatever it is. -/
theorem appcall_recv (hconfigured : w.configured = true) (hconnected : e.connected = false)
    (hs : (w.socket sockno).state = ELUA_UIP_STATE_RECV) :
    eluaUipAppcall c w sockno e =
      some (w.set sockno { w.socket sockno with state := ELUA_UIP_STATE_RECV_2 }, [.restart]) := by
  unfold eluaUipAppcall
  simp [hconfigured, hconnected, hs]

/-- The end of the connection, in the states in which it is looked for. -/
theorem appcall_terminal (hconfigured : w.configured = true) (hconnected : e.connected = false)
    (hidle : (w.socket sockno).state ≠ ELUA_UIP_STATE_IDLE)
    (hrecv : (w.socket sockno).state ≠ ELUA_UIP_STATE_RECV) (hterminal : e.terminal = true) :
    eluaUipAppcall c w sockno e =
      some ({ w with
          telnetSocket := if w.isTelnet c sockno then -1 else w.telnetSocket }.set sockno
        { w.socket sockno with res := terminalError e, state := ELUA_UIP_STATE_IDLE }, []) := by
  unfold eluaUipAppcall
  simp [hconfigured, hconnected, hidle, hrecv, hterminal]

end

/-- An event without a flag. -/
def Event.quiet (mss : Nat) : Event where
  connected := false
  aborted := false
  timedout := false
  closed := false
  acked := false
  rexmit := false
  poll := false
  newdata := false
  lport := 1024
  ripaddr := (0, 0)
  appdata := []
  datalen := 0
  mss := mss
  datalen_le := Nat.le_refl 0

/-- A build with telnet, for a machine on which `char` is signed. -/
def sampleConfig : Config := ⟨true, true, 150, 150⟩

end Uip
