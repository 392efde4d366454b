import EluaWebServer.Lib.Loop
import Mathlib.Data.Fintype.Pi
import Mathlib.Data.List.FinRange

/-!
# The TCP engine

`uip_process` is called for every segment that arrives, and for every connection when the
periodic timer fires.  It finds the connection of the segment, moves it on through the states of
TCP, calls the application at most once, and leaves at most one segment to be sent.  What the
application does in the call is a list of requests, which may be any.
-/

namespace Tcp

abbrev UipIpaddr := UInt16 × UInt16

/-! ## Sequence numbers -/

/-- Four bytes, the most significant one first. -/
structure Seqno where
  b0 : UInt8
  b1 : UInt8
  b2 : UInt8
  b3 : UInt8
  deriving DecidableEq, Repr

/-- The number that the bytes stand for. -/
def Seqno.value (q : Seqno) : Nat :=
  q.b0.toNat * 16777216 + q.b1.toNat * 65536 + q.b2.toNat * 256 + q.b3.toNat

/-- `++` on a byte, with the carry into the bytes before it. -/
def Seqno.incr1 (q : Seqno) : Seqno :=
  if q.b1 + 1 = 0 then { q with b0 := q.b0 + 1, b1 := q.b1 + 1 } else { q with b1 := q.b1 + 1 }

def Seqno.incr2 (q : Seqno) : Seqno :=
  if q.b2 + 1 = 0 then { q.incr1 with b2 := q.b2 + 1 } else { q with b2 := q.b2 + 1 }

/-- `++` on the four bytes. -/
def Seqno.incr (q : Seqno) : Seqno :=
  if q.b3 + 1 = 0 then { q.incr2 with b3 := q.b3 + 1 } else { q with b3 := q.b3 + 1 }

/-- `uip_add32`: what is left in `uip_acc32`. -/
def uipAdd32 (op32 : Seqno) (op16 : UInt16) : Seqno :=
  let lo := (op16 &&& 0xff).toUInt8
  let hi := (op16 >>> 8).toUInt8
  let acc : Seqno := { op32 with b2 := op32.b2 + hi, b3 := op32.b3 + lo }
  let acc := if acc.b2 < hi then acc.incr1 else acc
  if acc.b3 < lo then acc.incr2 else acc

theorem Seqno.value_lt (q : Seqno) : q.value < 2 ^ 32 := by
  have h0 := q.b0.toNat_lt
  have h1 := q.b1.toNat_lt
  have h2 := q.b2.toNat_lt
  have h3 := q.b3.toNat_lt
  unfold Seqno.value
  omega

theorem Seqno.value_inj {p q : Seqno} : p.value = q.value ↔ p = q := by
  refine ⟨fun h => ?_, fun h => h ▸ rfl⟩
  obtain ⟨p0, p1, p2, p3⟩ := p
  obtain ⟨q0, q1, q2, q3⟩ := q
  have hp0 := p0.toNat_lt
  have hp1 := p1.toNat_lt
  have hp2 := p2.toNat_lt
  have hp3 := p3.toNat_lt
  have hq0 := q0.toNat_lt
  have hq1 := q1.toNat_lt
  have hq2 := q2.toNat_lt
  have hq3 := q3.toNat_lt
  simp only [Seqno.value] at h
  simp only [Seqno.mk.injEq, ← UInt8.toNat_inj]
  omega

/-- Adding one to a byte, with the carry seen from the result. -/
theorem toNat_add_one (b : UInt8) :
    (b + 1 = 0 ∧ b.toNat = 255 ∧ (b + 1).toNat = 0) ∨
      (b + 1 ≠ 0 ∧ b.toNat < 255 ∧ (b + 1).toNat = b.toNat + 1) := by
  have hb := b.toNat_lt
  have hsum : (b + 1).toNat = (b.toNat + 1) % 256 := by simp [UInt8.toNat_add]
  have hzero : b + 1 = 0 ↔ (b + 1).toNat = 0 := by
    rw [← UInt8.toNat_inj]
    rfl
  by_cases hmax : b.toNat = 255
  · exact .inl ⟨hzero.mpr (by omega), hmax, by omega⟩
  · refine .inr ⟨fun h => ?_, by omega, by omega⟩
    have := hzero.mp h
    omega

/-- Adding a byte to a byte, with the carry seen from the result. -/
theorem toNat_add_carry (b n : UInt8) :
    (b + n < n ∧ (b + n).toNat + 256 = b.toNat + n.toNat) ∨
      (¬ b + n < n ∧ (b + n).toNat = b.toNat + n.toNat) := by
  have hb := b.toNat_lt
  have hn := n.toNat_lt
  have hsum : (b + n).toNat = (b.toNat + n.toNat) % 256 := UInt8.toNat_add b n
  rw [UInt8.lt_iff_toNat_lt]
  by_cases hcarry : b.toNat + n.toNat < 256
  · exact .inr ⟨by omega, by omega⟩
  · exact .inl ⟨by omega, by omega⟩

theorem Seqno.value_incr1 (q : Seqno) : q.incr1.value = (q.value + 65536) % 2 ^ 32 := by
  have h0 := q.b0.toNat_lt
  have h2 := q.b2.toNat_lt
  have h3 := q.b3.toNat_lt
  unfold Seqno.incr1
  rcases toNat_add_one q.b1 with ⟨hzero, hb, hsum⟩ | ⟨hzero, hb, hsum⟩
  · rw [if_pos hzero]
    rcases toNat_add_one q.b0 with ⟨-, hb0, hsum0⟩ | ⟨-, hb0, hsum0⟩ <;>
      simp only [Seqno.value, hsum, hsum0] <;> omega
  · rw [if_neg hzero]
    simp only [Seqno.value, hsum]
    omega

/-- What a carry into a higher byte adds too much, the byte that wraps takes away. -/
theorem eq_mod_of_add {x v k c m : Nat} (hm : 0 < m) (hk : k ≤ c) (h : x + k = (v + c) % m) :
    x = (v + (c - k)) % m := by
  have hlt : x + k < m := h ▸ Nat.mod_lt _ hm
  have hdiv := Nat.div_add_mod (v + c) m
  have hsum : v + (c - k) = x + m * ((v + c) / m) := by omega
  rw [hsum, Nat.add_mul_mod_self_left, Nat.mod_eq_of_lt (by omega)]

theorem Seqno.value_incr2 (q : Seqno) : q.incr2.value = (q.value + 256) % 2 ^ 32 := by
  have h0 := q.b0.toNat_lt
  have h1 := q.b1.toNat_lt
  have h3 := q.b3.toNat_lt
  unfold Seqno.incr2
  rcases toNat_add_one q.b2 with ⟨hzero, hb, hsum⟩ | ⟨hzero, hb, hsum⟩
  · have hb2 : q.incr1.b2 = q.b2 := by unfold Seqno.incr1; split <;> rfl
    rw [if_pos hzero]
    refine eq_mod_of_add (k := 65280) (c := 65536) (by decide) (by decide) ?_
    rw [← q.value_incr1]
    simp only [Seqno.value, hsum, hb2, hb]
    omega
  · rw [if_neg hzero]
    simp only [Seqno.value, hsum]
    omega

theorem Seqno.value_incr (q : Seqno) : q.incr.value = (q.value + 1) % 2 ^ 32 := by
  have h0 := q.b0.toNat_lt
  have h1 := q.b1.toNat_lt
  have h2 := q.b2.toNat_lt
  unfold Seqno.incr
  rcases toNat_add_one q.b3 with ⟨hzero, hb, hsum⟩ | ⟨hzero, hb, hsum⟩
  · have hb3 : q.incr2.b3 = q.b3 := by
      unfold Seqno.incr2 Seqno.incr1
      split
      · split <;> rfl
      · rfl
    rw [if_pos hzero]
    refine eq_mod_of_add (k := 255) (c := 256) (by decide) (by decide) ?_
    rw [← q.value_incr2]
    simp only [Seqno.value, hsum, hb3, hb, Nat.add_zero]
  · rw [if_neg hzero]
    simp only [Seqno.value, hsum]
    omega

/-- The third byte, with the carry into the bytes before it. -/
theorem value_add_b2 (q : Seqno) (hi : UInt8) :
    (if q.b2 + hi < hi then Seqno.incr1 { q with b2 := q.b2 + hi }
      else { q with b2 := q.b2 + hi }).value = (q.value + 256 * hi.toNat) % 2 ^ 32 := by
  have h0 := q.b0.toNat_lt
  have h1 := q.b1.toNat_lt
  have h3 := q.b3.toNat_lt
  rcases toNat_add_carry q.b2 hi with ⟨hlt, hsum⟩ | ⟨hlt, hsum⟩
  · rw [if_pos hlt, Seqno.value_incr1]
    simp only [Seqno.value]
    refine congrArg (· % 2 ^ 32) ?_
    omega
  · rw [if_neg hlt, ← Nat.mod_eq_of_lt (Seqno.value_lt _)]
    simp only [Seqno.value, hsum]
    refine congrArg (· % 2 ^ 32) ?_
    omega

/-- The last byte, with the carry into the bytes before it. -/
theorem value_add_b3 (q : Seqno) (b lo : UInt8) (hb : q.b3 = b + lo) :
    (if q.b3 < lo then q.incr2 else q).value =
      (({ q with b3 := b } : Seqno).value + lo.toNat) % 2 ^ 32 := by
  rcases toNat_add_carry b lo with ⟨hlt, hsum⟩ | ⟨hlt, hsum⟩
  · rw [if_pos (hb ▸ hlt), Seqno.value_incr2]
    simp only [Seqno.value, hb]
    refine congrArg (· % 2 ^ 32) ?_
    omega
  · rw [if_neg (hb ▸ hlt), ← Nat.mod_eq_of_lt (Seqno.value_lt q)]
    simp only [Seqno.value, hb, hsum]
    refine congrArg (· % 2 ^ 32) ?_
    omega

/-- **32-bit addition.**  The carries that `uip_add32` finds by comparing are those of the sum. -/
theorem value_uipAdd32 (q : Seqno) (n : UInt16) :
    (uipAdd32 q n).value = (q.value + n.toNat) % 2 ^ 32 := by
  have hn := n.toNat_lt
  have hlo : (n &&& 0xff).toUInt8.toNat = n.toNat % 256 := by
    have hand : n.toNat &&& 255 = n.toNat % 256 := Nat.and_two_pow_sub_one_eq_mod n.toNat 8
    rw [UInt16.toNat_toUInt8, UInt16.toNat_and]
    change (n.toNat &&& 255) % 256 = n.toNat % 256
    omega
  have hhi : (n >>> 8).toUInt8.toNat = n.toNat / 256 := by
    have hshift : n.toNat >>> 8 = n.toNat / 256 := Nat.shiftRight_eq_div_pow n.toNat 8
    rw [UInt16.toNat_toUInt8, UInt16.toNat_shiftRight]
    change (n.toNat >>> 8) % 256 = n.toNat / 256
    omega
  unfold uipAdd32
  generalize (n &&& 0xff).toUInt8 = lo at hlo ⊢
  generalize (n >>> 8).toUInt8 = hi at hhi ⊢
  dsimp only
  rw [value_add_b3 _ q.b3 lo (by split <;> simp [Seqno.incr1, apply_ite Seqno.b3])]
  have hmiddle : ({ (if q.b2 + hi < hi then Seqno.incr1 { q with b2 := q.b2 + hi, b3 := q.b3 + lo }
      else { q with b2 := q.b2 + hi, b3 := q.b3 + lo }) with b3 := q.b3 } : Seqno) =
      if q.b2 + hi < hi then Seqno.incr1 { q with b2 := q.b2 + hi }
        else { q with b2 := q.b2 + hi } := by
    unfold Seqno.incr1
    split
    · dsimp only
      split <;> rfl
    · rfl
  rw [hmiddle, value_add_b2, Nat.mod_add_mod]
  refine congrArg (· % 2 ^ 32) ?_
  omega

/-! ## Connections and segments -/

inductive TcpState where
  | CLOSED
  | SYN_RCVD
  | SYN_SENT
  | ESTABLISHED
  | FIN_WAIT_1
  | FIN_WAIT_2
  | CLOSING
  | TIME_WAIT
  | LAST_ACK
  | RESERVED
  deriving DecidableEq, Repr

open TcpState

/-- `struct uip_conn`.  `tcpstateflags` is the state and the bit `UIP_STOPPED`. -/
structure Conn where
  ripaddr : UipIpaddr
  lport : UInt16
  rport : UInt16
  rcvNxt : Seqno
  sndNxt : Seqno
  len : UInt16
  mss : UInt16
  initialmss : UInt16
  sa : UInt8
  sv : UInt8
  rto : UInt8
  tcpstate : TcpState
  stopped : Bool
  timer : UInt8
  nrtx : UInt8
  deriving DecidableEq, Repr

/-- `tcpstateflags = s`. -/
def Conn.enter (conn : Conn) (s : TcpState) : Conn := { conn with tcpstate := s, stopped := false }

/-- `tcpstateflags == s`. -/
def Conn.is (conn : Conn) (s : TcpState) : Bool := conn.tcpstate = s && !conn.stopped

/-- `uip_conn_active`. -/
def Conn.active (conn : Conn) : Bool := !conn.is CLOSED && !conn.is RESERVED

/-- `uip_outstanding`. -/
def Conn.outstanding (conn : Conn) : Bool := conn.len ≠ 0

/-- The control bits of a segment. -/
structure TcpFlags where
  fin : Bool := false
  syn : Bool := false
  rst : Bool := false
  psh : Bool := false
  ack : Bool := false
  urg : Bool := false
  deriving DecidableEq, Repr

/-- `TCP_SYN` alone, and `TCP_SYN | TCP_ACK`. -/
def TcpFlags.SYN : TcpFlags := { syn := true }
def TcpFlags.SYNACK : TcpFlags := { syn := true, ack := true }

/-- A segment with the addresses of its packet.  `tcpoffset` is the length of the header in words,
and `data` what follows the first 20 bytes of the header: the options, and then the data. -/
@[ext]
structure Segment where
  srcipaddr : UipIpaddr
  destipaddr : UipIpaddr
  srcport : UInt16
  destport : UInt16
  seqno : Seqno
  ackno : Seqno
  flags : TcpFlags
  tcpoffset : Nat
  wnd : UInt16
  urgp : UInt16
  data : List UInt8
  deriving DecidableEq, Repr

structure Config where
  hostaddr : UipIpaddr
  UIP_TCP_MSS : UInt16
  UIP_RECEIVE_WINDOW : UInt16

def UIP_RTO : UInt8 := 3
def UIP_MAXRTX : UInt8 := 8
def UIP_MAXSYNRTX : UInt8 := 5
def UIP_TIME_WAIT_TIMEOUT : UInt8 := 120
def UIP_IPH_LEN : UInt16 := 20
def UIP_TCPIP_HLEN : UInt16 := 40

/-! ## The application -/

/-- `uip_flags`. -/
structure UipFlags where
  ackdata : Bool := false
  newdata : Bool := false
  rexmit : Bool := false
  poll : Bool := false
  close : Bool := false
  abort : Bool := false
  connected : Bool := false
  timedout : Bool := false
  deriving DecidableEq, Repr

/-- What the application is called for: the flags, `uip_datalen()`, `uip_mss()`, and the bytes from
`uip_appdata` on. -/
structure Event where
  flags : UipFlags
  datalen : UInt16
  mss : UInt16
  appdata : List UInt8
  deriving DecidableEq, Repr

/-- What the application can do when it is called. -/
inductive Call where
  | close
  | abort
  | stop
  | restart
  | send (bytes : List UInt8)
  deriving DecidableEq, Repr

/-- What the application works on: the connection, `uip_flags`, `uip_slen`, and the packet buffer
from `uip_sappdata` on. -/
structure Ctx where
  conn : Conn
  flags : UipFlags
  slen : UInt16
  buf : List UInt8

/-- One request.  Nothing is sent from an empty buffer. -/
def Ctx.request (x : Ctx) : Call → Ctx
  | .close => { x with flags := { close := true } }
  | .abort => { x with flags := { abort := true } }
  | .stop => { x with conn := { x.conn with stopped := true } }
  | .restart =>
      { x with flags := { x.flags with newdata := true }, conn := { x.conn with stopped := false } }
  | .send bytes =>
      if bytes = [] then x
      else
        { x with slen := UInt16.ofNat bytes.length, buf := bytes ++ x.buf.drop bytes.length }

/-- `UIP_APPCALL`. -/
def Ctx.appcall (x : Ctx) (calls : List Call) : Ctx := calls.foldl Ctx.request x

/-! ## What is sent -/

/-- From `tcp_send` on. -/
def tcpSend (c : Config) (conn : Conn) (flags : TcpFlags) (optdata payload : List UInt8) :
    Segment where
  srcipaddr := c.hostaddr
  destipaddr := conn.ripaddr
  srcport := conn.lport
  destport := conn.rport
  seqno := conn.sndNxt
  ackno := conn.rcvNxt
  flags := flags
  tcpoffset := 5 + optdata.length / 4
  wnd := if conn.stopped then 0 else c.UIP_RECEIVE_WINDOW
  urgp := 0
  data := optdata ++ payload

/-- `tcp_send_nodata`. -/
def tcpSendNodata (c : Config) (conn : Conn) (flags : TcpFlags) : Segment :=
  tcpSend c conn flags [] []

/-- `tcp_send_syn`, with the option for the maximum segment size. -/
def tcpSendSyn (c : Config) (conn : Conn) (flags : TcpFlags) : Segment :=
  tcpSend c conn flags
    [2, 4, (c.UIP_TCP_MSS / 256).toUInt8, (c.UIP_TCP_MSS &&& 255).toUInt8] []

/-- `reset`, but for a segment that is one itself. -/
def reset (c : Config) (seg : Segment) : Option Segment :=
  if seg.flags.rst then none
  else
    some
      { seg with
        srcipaddr := c.hostaddr
        destipaddr := seg.srcipaddr
        srcport := seg.destport
        destport := seg.srcport
        seqno := seg.ackno
        ackno := seg.seqno.incr
        flags := { rst := true, ack := true }
        tcpoffset := 5
        urgp := 0
        data := [] }

/-- What a call of `uip_process` does to its connection and to the buffer, what it has called the
application for, and what is to be sent. -/
structure Result where
  conn : Conn
  buf : List UInt8
  event : Option Event
  sent : Option Segment

/-- `apprexmit`: data, or an acknowledgement for data. -/
def apprexmit (c : Config) (x : Ctx) : Option Segment :=
  if x.slen ≠ 0 ∧ x.conn.len ≠ 0 then
    some (tcpSend c x.conn { ack := true, psh := true } [] (x.buf.take x.conn.len.toNat))
  else if x.flags.newdata then some (tcpSendNodata c x.conn { ack := true })
  else none

/-- How much is sent, and that it is outstanding now. -/
def Ctx.take (x : Ctx) : Ctx :=
  if x.slen = 0 then x
  else
    let len := if x.flags.ackdata then 0 else x.conn.len
    if len = 0 then
      let slen := if x.conn.mss < x.slen then x.conn.mss else x.slen
      { x with slen := slen, conn := { x.conn with len := slen } }
    else { x with slen := len, conn := { x.conn with len := len } }

/-- `appsend`: what is done about the requests of the application. -/
def appsend (c : Config) (x : Ctx) : Conn × Option Segment :=
  if x.flags.abort then
    let conn := x.conn.enter CLOSED
    (conn, some (tcpSendNodata c conn { rst := true, ack := true }))
  else if x.flags.close then
    let conn := { x.conn.enter FIN_WAIT_1 with len := 1, nrtx := 0 }
    (conn, some (tcpSendNodata c conn { fin := true, ack := true }))
  else
    let x := x.take
    let x := { x with conn := { x.conn with nrtx := 0 } }
    (x.conn, apprexmit c x)

/-! ## Options -/

/-- Where the loop that looks for the maximum segment size is, or how it has ended. -/
inductive OptScan where
  | at (c : UInt8)
  | found (mss : UInt16)
  | ended
  deriving DecidableEq, Repr

/-- `uip_buf[UIP_TCPIP_HLEN + UIP_LLH_LEN + i]`. -/
def optByte (buf : List UInt8) (i : Nat) : UInt8 := buf.getD i 0

/-- One round of the loop.  `c` is a byte, and the length of an option is added to it. -/
def optStep (tcpoffset : Nat) (buf : List UInt8) : OptScan → OptScan
  | .at c =>
      if c.toNat < (tcpoffset - 5) * 4 then
        if optByte buf c.toNat = 0 then .ended
        else if optByte buf c.toNat = 1 then .at (c + 1)
        else if optByte buf c.toNat = 2 ∧ optByte buf (1 + c.toNat) = 4 then
          .found ((optByte buf (2 + c.toNat)).toUInt16 <<< 8 |||
            (optByte buf (3 + c.toNat)).toUInt16)
        else if optByte buf (1 + c.toNat) = 0 then .ended
        else .at (c + optByte buf (1 + c.toNat))
      else .ended
  | s => s

def OptScan.running : OptScan → Bool
  | .at _ => true
  | _ => false

/-- The loop from the first option on.  There is no result while it runs. -/
def optLoop (tcpoffset : Nat) (buf : List UInt8) (rounds : Nat) : Option OptScan :=
  Loop.whileLoop OptScan.running (optStep tcpoffset buf) rounds (.at 0)

/-- The connection when the options have been read.  As `c` has 256 values, a loop that does not
end in that many rounds does not end. -/
def parseOptions (c : Config) (seg : Segment) (buf : List UInt8) (conn : Conn) : Option Conn :=
  if 5 < seg.tcpoffset then
    (optLoop seg.tcpoffset buf 257).map fun
      | .found mss =>
          let mss := if c.UIP_TCP_MSS < mss then c.UIP_TCP_MSS else mss
          { conn with initialmss := mss, mss := mss }
      | _ => conn
  else some conn

/-! ## A segment for a connection -/

/-- `uip_add_rcv_nxt`. -/
def Conn.addRcvNxt (conn : Conn) (n : UInt16) : Conn :=
  { conn with rcvNxt := uipAdd32 conn.rcvNxt n }

/-- `uip_len` of the packet, with the headers. -/
def Segment.uipLen (seg : Segment) : UInt16 := UInt16.ofNat (40 + seg.data.length)

/-- `uip_len - c - UIP_IPH_LEN`, the length of the data. -/
def Segment.datalen (seg : Segment) : UInt16 :=
  seg.uipLen - UInt16.ofNat (4 * seg.tcpoffset) - UIP_IPH_LEN

/-- The segment has data or takes a sequence number, and is not the one that is expected next. -/
def outOfOrder (conn : Conn) (seg : Segment) : Bool :=
  !(conn.tcpstate = SYN_SENT && seg.flags = .SYNACK) &&
    ((seg.datalen ≠ 0 || seg.flags.syn || seg.flags.fin) && seg.seqno ≠ conn.rcvNxt)

/-- The estimation of the round trip time, unless there have been retransmissions. -/
def Conn.estimate (conn : Conn) : Conn :=
  if conn.nrtx = 0 then
    let m := conn.rto - conn.timer
    let m := m - (conn.sa >>> 3)
    let sa := conn.sa + m
    let m := if 128 ≤ m then 0 - m else m
    let m := m - (conn.sv >>> 2)
    let sv := conn.sv + m
    { conn with sa := sa, sv := sv, rto := (sa >>> 3) + sv }
  else conn

/-- The segment acknowledges the outstanding data. -/
def acknowledges (conn : Conn) (seg : Segment) : Bool :=
  seg.flags.ack && conn.outstanding && seg.ackno = uipAdd32 conn.sndNxt conn.len

/-- The connection when its data has been acknowledged. -/
def Conn.acked (conn : Conn) : Conn :=
  let conn := { conn with sndNxt := uipAdd32 conn.sndNxt conn.len }.estimate
  { conn with timer := conn.rto, len := 0 }

/-- Both sides have closed the connection. -/
def Conn.timeWait (conn : Conn) : Conn := { conn.enter TIME_WAIT with timer := 0 }

/-- The application is called and nothing it has to send is sent. -/
def notify (conn : Conn) (flags : UipFlags) (datalen : UInt16) (buf : List UInt8)
    (calls : List Call) : Ctx × Event :=
  (Ctx.appcall ⟨conn, flags, 0, buf⟩ calls, ⟨flags, datalen, conn.mss, buf⟩)

/-- The application is called, and what it has to send is sent. -/
def converse (c : Config) (conn : Conn) (flags : UipFlags) (datalen : UInt16)
    (buf appdata : List UInt8) (calls : List Call) : Result :=
  let x := Ctx.appcall ⟨conn, flags, 0, buf⟩ calls
  let r := appsend c x
  ⟨r.1, x.buf, some ⟨flags, datalen, conn.mss, appdata⟩, r.2⟩

/-- `tcp_send_ack`. -/
def sendAck (c : Config) (conn : Conn) (buf : List UInt8) (event : Option Event) : Result :=
  ⟨conn, buf, event, some (tcpSendNodata c conn { ack := true })⟩

/-- `drop`. -/
def drop (conn : Conn) (buf : List UInt8) : Result := ⟨conn, buf, none, none⟩

/-- The window of the peer, when it is smaller than the segments it takes. -/
def Conn.window (conn : Conn) (wnd : UInt16) : Conn :=
  { conn with mss := if conn.initialmss < wnd ∨ wnd = 0 then conn.initialmss else wnd }

/-- The data is received, if there is any. -/
def Conn.receive (conn : Conn) (len : UInt16) : Conn :=
  if len = 0 then conn else conn.addRcvNxt len

/-- What urgent data takes from the data. -/
def Segment.urgent (seg : Segment) : UInt16 := if seg.flags.urg then seg.urgp else 0

/-- `UIP_SYN_RCVD` -/
def synRcvd (c : Config) (conn : Conn) (acked : Bool) (seg : Segment) (buf : List UInt8)
    (calls : List Call) : Result :=
  if acked then
    let conn := { conn.enter ESTABLISHED with len := 0 }
    converse c (conn.receive seg.datalen) { connected := true, newdata := seg.datalen ≠ 0 }
      seg.datalen buf buf calls
  else drop conn buf

/-- `UIP_SYN_SENT` -/
def synSent (c : Config) (conn : Conn) (acked : Bool) (seg : Segment) (buf : List UInt8)
    (calls : List Call) : Option Result :=
  if acked && seg.flags = .SYNACK then
    (parseOptions c seg buf conn).map fun conn =>
      let conn := { conn.enter ESTABLISHED with rcvNxt := uipAdd32 seg.seqno 1, len := 0 }
      converse c conn { connected := true, newdata := true } 0 buf buf calls
  else
    let r := notify conn { abort := true } seg.datalen buf calls
    some ⟨r.1.conn.enter CLOSED, r.1.buf, some r.2, reset c seg⟩

/-- The peer closes an established connection. -/
def finished (c : Config) (conn : Conn) (acked : Bool) (seg : Segment) (buf : List UInt8)
    (calls : List Call) : Result :=
  if conn.outstanding then drop conn buf
  else
    let flags : UipFlags := { ackdata := acked, close := true, newdata := seg.datalen ≠ 0 }
    let r := notify (conn.addRcvNxt (1 + seg.datalen)) flags seg.datalen buf calls
    let conn := { r.1.conn.enter LAST_ACK with len := 1, nrtx := 0 }
    ⟨conn, r.1.buf, some r.2, some (tcpSendNodata c conn { fin := true, ack := true })⟩

/-- Data, acknowledgements and windows for an established connection. -/
def exchanged (c : Config) (conn : Conn) (acked : Bool) (seg : Segment) (buf : List UInt8)
    (calls : List Call) : Result :=
  let len := seg.datalen - seg.urgent
  let newdata : Bool := len ≠ 0 && !conn.stopped
  let conn := (if newdata then conn.addRcvNxt len else conn).window seg.wnd
  if newdata || acked then
    converse c conn { ackdata := acked, newdata := newdata } len buf
      (buf.drop seg.urgent.toNat) calls
  else drop conn buf

/-- `UIP_ESTABLISHED` -/
def established (c : Config) (conn : Conn) (acked : Bool) (seg : Segment) (buf : List UInt8)
    (calls : List Call) : Result :=
  if seg.flags.fin && !conn.stopped then finished c conn acked seg buf calls
  else exchanged c conn acked seg buf calls

/-- `UIP_LAST_ACK` -/
def lastAck (conn : Conn) (acked : Bool) (seg : Segment) (buf : List UInt8) (calls : List Call) :
    Result :=
  if acked then
    let r := notify (conn.enter CLOSED) { close := true } seg.datalen buf calls
    ⟨r.1.conn, r.1.buf, some r.2, none⟩
  else drop conn buf

/-- The application is told that the peer has closed the connection, which is acknowledged. -/
def closedByPeer (c : Config) (conn : Conn) (seg : Segment) (buf : List UInt8)
    (calls : List Call) : Result :=
  let r := notify (conn.addRcvNxt 1) { close := true } seg.datalen buf calls
  sendAck c r.1.conn r.1.buf (some r.2)

/-- `UIP_FIN_WAIT_1` -/
def finWait1 (c : Config) (conn : Conn) (acked : Bool) (seg : Segment) (buf : List UInt8)
    (calls : List Call) : Result :=
  let conn := conn.receive seg.datalen
  if seg.flags.fin then
    let conn := if acked then { conn.timeWait with len := 0 } else conn.enter CLOSING
    closedByPeer c conn seg buf calls
  else if acked then drop { conn.enter FIN_WAIT_2 with len := 0 } buf
  else if seg.datalen = 0 then drop conn buf
  else sendAck c conn buf none

/-- `UIP_FIN_WAIT_2` -/
def finWait2 (c : Config) (conn : Conn) (seg : Segment) (buf : List UInt8) (calls : List Call) :
    Result :=
  let conn := conn.receive seg.datalen
  if seg.flags.fin then closedByPeer c conn.timeWait seg buf calls
  else if seg.datalen = 0 then drop conn buf
  else sendAck c conn buf none

/-- Different things depending on in what state the connection is. -/
def byState (c : Config) (conn : Conn) (acked : Bool) (seg : Segment) (buf : List UInt8)
    (calls : List Call) : Option Result :=
  match conn.tcpstate with
  | SYN_RCVD => some (synRcvd c conn acked seg buf calls)
  | SYN_SENT => synSent c conn acked seg buf calls
  | ESTABLISHED => some (established c conn acked seg buf calls)
  | LAST_ACK => some (lastAck conn acked seg buf calls)
  | FIN_WAIT_1 => some (finWait1 c conn acked seg buf calls)
  | FIN_WAIT_2 => some (finWait2 c conn seg buf calls)
  | TIME_WAIT => some (sendAck c conn buf none)
  | CLOSING => some (drop (if acked then conn.timeWait else conn) buf)
  | CLOSED | RESERVED => some (drop conn buf)

/-- `found`: a segment for a connection, with the packet buffer from the data on.  There is no
result while the options are read. -/
def found (c : Config) (conn : Conn) (seg : Segment) (buf : List UInt8) (calls : List Call) :
    Option Result :=
  if seg.flags.rst then
    let r := notify (conn.enter CLOSED) { abort := true } seg.uipLen buf calls
    some ⟨r.1.conn, r.1.buf, some r.2, none⟩
  else if outOfOrder conn seg then some (sendAck c conn buf none)
  else if acknowledges conn seg then byState c conn.acked true seg buf calls
  else byState c conn false seg buf calls

/-! ## The periodic timer -/

/-- What is sent or asked for again when the time is over. -/
def retransmit (c : Config) (conn : Conn) (buf : List UInt8) (calls : List Call) : Result :=
  match conn.tcpstate with
  | SYN_RCVD => ⟨conn, buf, none, some (tcpSendSyn c conn .SYNACK)⟩
  | SYN_SENT => ⟨conn, buf, none, some (tcpSendSyn c conn .SYN)⟩
  | ESTABLISHED =>
      let r := notify conn { rexmit := true } 0 buf calls
      ⟨r.1.conn, r.1.buf, some r.2, apprexmit c r.1⟩
  | FIN_WAIT_1 | CLOSING | LAST_ACK =>
      ⟨conn, buf, none, some (tcpSendNodata c conn { fin := true, ack := true })⟩
  | _ => drop conn buf

/-- The segment has been sent as often as it can be. -/
def Conn.exhausted (conn : Conn) : Bool :=
  conn.nrtx = UIP_MAXRTX || ((conn.is SYN_SENT || conn.is SYN_RCVD) && conn.nrtx = UIP_MAXSYNRTX)

/-- The time of the outstanding segment is over. -/
def timedOut (c : Config) (conn : Conn) (buf : List UInt8) (calls : List Call) : Result :=
  if conn.exhausted then
    let conn := { conn.enter CLOSED with timer := conn.timer - 1 }
    let r := notify conn { timedout := true } 0 buf calls
    ⟨r.1.conn, r.1.buf, some r.2, some (tcpSendNodata c r.1.conn { rst := true, ack := true })⟩
  else
    let backoff := if 4 < conn.nrtx then 4 else conn.nrtx
    retransmit c { conn with timer := UIP_RTO <<< backoff, nrtx := conn.nrtx + 1 } buf calls

/-- `uip_process( UIP_TIMER )` for a connection. -/
def periodic (c : Config) (forced : Bool) (conn : Conn) (buf : List UInt8) (calls : List Call) :
    Result :=
  if !forced && (conn.is TIME_WAIT || conn.is FIN_WAIT_2) then
    let conn := { conn with timer := conn.timer + 1 }
    drop (if conn.timer = UIP_TIME_WAIT_TIMEOUT then conn.enter CLOSED else conn) buf
  else if conn.active then
    if conn.outstanding && !forced then
      if conn.timer = 0 then timedOut c conn buf calls
      else drop { conn with timer := conn.timer - 1 } buf
    else if conn.tcpstate = ESTABLISHED then
      converse c conn { poll := true } 0 buf buf calls
    else drop conn buf
  else drop conn buf

/-! ## The table of connections -/

/-- `uip_conns`, `uip_listenports`, `iss`, `lastport`, and the packet buffer from the data of TCP
on. -/
structure World (n : Nat) where
  conns : Fin n → Conn
  listenports : List UInt16
  iss : Seqno
  lastport : Nat
  buf : List UInt8

variable {n : Nat}

def World.set (w : World n) (i : Fin n) (conn : Conn) : World n :=
  { w with conns := Function.update w.conns i conn }

/-- The segment comes from the remote end of the connection. -/
def Conn.matches (conn : Conn) (seg : Segment) : Bool :=
  conn.active && seg.destport = conn.lport && seg.srcport = conn.rport &&
    seg.srcipaddr = conn.ripaddr

/-- The connection of a segment. -/
def demultiplex (conns : Fin n → Conn) (seg : Segment) : Option (Fin n) :=
  (List.finRange n).find? fun i => (conns i).matches seg

/-- The loop that looks for an unused connection, or for the one that has been in `TIME_WAIT` for
the longest time. -/
def findUnused (conns : Fin n → Conn) : List (Fin n) → Option (Fin n) → Option (Fin n)
  | [], best => best
  | i :: is, best =>
      if (conns i).is CLOSED then some i
      else if (conns i).is TIME_WAIT then
        match best with
        | none => findUnused conns is (some i)
        | some b =>
            findUnused conns is (some (if (conns b).timer < (conns i).timer then i else b))
      else findUnused conns is best

/-- The fields of a connection that is opened by the peer. -/
def Conn.accept (conn : Conn) (iss : Seqno) (seg : Segment) : Conn :=
  { conn.enter SYN_RCVD with
    rto := UIP_RTO
    timer := UIP_RTO
    sa := 0
    sv := 4
    nrtx := 0
    lport := seg.destport
    rport := seg.srcport
    ripaddr := seg.srcipaddr
    sndNxt := iss
    len := 1
    rcvNxt := uipAdd32 seg.seqno 1 }

/-- What a step does, to which connection, what the application is called for, and what is sent. -/
structure Outcome (n : Nat) where
  world : World n
  index : Option (Fin n)
  event : Option Event
  sent : Option Segment

/-- Nothing happens. -/
def World.ignore (w : World n) : Outcome n := ⟨w, none, none, none⟩

/-- What happens to a connection. -/
def World.result (w : World n) (i : Fin n) (r : Result) : Outcome n :=
  ⟨{ w.set i r.conn with buf := r.buf }, some i, r.event, r.sent⟩

/-- `uip_process( UIP_DATA )` for a segment whose checksums are right. -/
def uipInput (c : Config) (w : World n) (seg : Segment) (calls : List Call) :
    Option (Outcome n) :=
  let w := { w with buf := seg.data ++ w.buf.drop seg.data.length }
  if c.hostaddr ≠ (0, 0) ∧ seg.destipaddr ≠ c.hostaddr then some w.ignore
  else
    match demultiplex w.conns seg with
    | some i => (found c (w.conns i) seg w.buf calls).map (w.result i)
    | none =>
        if seg.flags = .SYN ∧ seg.destport ∈ w.listenports then
          match findUnused w.conns (List.finRange n) none with
          | none => some w.ignore
          | some i =>
              (parseOptions c seg w.buf ((w.conns i).accept w.iss seg)).map fun conn =>
                w.result i ⟨conn, w.buf, none, some (tcpSendSyn c conn .SYNACK)⟩
        else some { w.ignore with sent := reset c seg }

/-- `uip_periodic`. -/
def uipPeriodic (c : Config) (w : World n) (i : Fin n) (forced : Bool) (calls : List Call) :
    Outcome n :=
  { w with iss := w.iss.incr }.result i (periodic c forced (w.conns i) w.buf calls)

/-! ## Opening connections -/

/-- The port in network byte order. -/
def htons (port : UInt16) : UInt16 := port <<< 8 ||| port >>> 8

/-- `++lastport`, which stays below 32000. -/
def nextPort (lastport : Nat) : Nat := if 32000 ≤ lastport + 1 then 4096 else lastport + 1

/-- A connection uses the port. -/
def portUsed (conns : Fin n → Conn) (port : Nat) : Bool :=
  decide (∃ i, (conns i).active = true ∧ (conns i).lport = htons (UInt16.ofNat port))

/-- `uip_find_unused_port`, for at most `n + 1` ports. -/
def uipFindUnusedPort (w : World n) : Option Nat :=
  Loop.whileLoop (portUsed w.conns) nextPort (n + 1) (nextPort w.lastport)

/-- `uip_prepare_conn`. -/
def Conn.prepare (c : Config) (conn : Conn) (iss : Seqno) (lastport : Nat) (ripaddr : UipIpaddr)
    (rport : UInt16) : Conn :=
  { conn.enter SYN_SENT with
    sndNxt := iss
    initialmss := c.UIP_TCP_MSS
    mss := c.UIP_TCP_MSS
    len := 1
    nrtx := 0
    timer := 1
    rto := UIP_RTO
    sa := 0
    sv := 16
    lport := htons (UInt16.ofNat lastport)
    rport := rport
    ripaddr := ripaddr }

/-- `uip_connect`. -/
def uipConnect (c : Config) (w : World n) (ripaddr : UipIpaddr) (rport : UInt16) :
    Option (World n) :=
  (uipFindUnusedPort w).map fun port =>
    let w := { w with lastport := port }
    match findUnused w.conns (List.finRange n) none with
    | none => w
    | some i => w.set i ((w.conns i).prepare c w.iss port ripaddr rport)

/-- `uip_connect_socket`. -/
def uipConnectSocket (c : Config) (w : World n) (i : Fin n) (ripaddr : UipIpaddr)
    (rport : UInt16) : Option (World n) :=
  if (w.conns i).is RESERVED then
    (uipFindUnusedPort w).map fun port =>
      let w := { w with lastport := port }
      w.set i ((w.conns i).prepare c w.iss port ripaddr rport)
  else some w

/-- `elua_net_socket`: the first connection that is closed is reserved. -/
def eluaNetSocket (w : World n) : World n :=
  match (List.finRange n).find? fun i => (w.conns i).is CLOSED with
  | none => w
  | some i => w.set i ((w.conns i).enter RESERVED)

/-- `uip_listen`. -/
def uipListen (w : World n) (port : UInt16) : World n :=
  match w.listenports.findIdx? (· = 0) with
  | none => w
  | some k => { w with listenports := w.listenports.set k port }

/-- `uip_unlisten`. -/
def uipUnlisten (w : World n) (port : UInt16) : World n :=
  match w.listenports.findIdx? (· = port) with
  | none => w
  | some k => { w with listenports := w.listenports.set k 0 }

/-! ## The system -/

inductive Action (n : Nat) where
  | input (seg : Segment) (calls : List Call)
  | periodic (i : Fin n) (forced : Bool) (calls : List Call)
  | connect (ripaddr : UipIpaddr) (rport : UInt16)
  | connectSocket (i : Fin n) (ripaddr : UipIpaddr) (rport : UInt16)
  | socket
  | listen (port : UInt16)
  | unlisten (port : UInt16)

def outcome (c : Config) (w : World n) : Action n → Option (Outcome n)
  | .input seg calls => uipInput c w seg calls
  | .periodic i forced calls => some (uipPeriodic c w i forced calls)
  | .connect ripaddr rport => (uipConnect c w ripaddr rport).map World.ignore
  | .connectSocket i ripaddr rport => (uipConnectSocket c w i ripaddr rport).map World.ignore
  | .socket => some (eluaNetSocket w).ignore
  | .listen port => some (uipListen w port).ignore
  | .unlisten port => some (uipUnlisten w port).ignore

def step (c : Config) (w : World n) (a : Action n) : Option (World n) :=
  (outcome c w a).map Outcome.world

/-- A connection that has never been used: all of it is static memory. -/
def Conn.unused : Conn where
  ripaddr := (0, 0)
  lport := 0
  rport := 0
  rcvNxt := ⟨0, 0, 0, 0⟩
  sndNxt := ⟨0, 0, 0, 0⟩
  len := 0
  mss := 0
  initialmss := 0
  sa := 0
  sv := 0
  rto := 0
  tcpstate := CLOSED
  stopped := false
  timer := 0
  nrtx := 0

/-- `uip_init`, with a number of entries in `uip_listenports`. -/
def uipInit (n ports : Nat) (buf : List UInt8) : World n where
  conns := fun _ => .unused
  listenports := List.replicate ports 0
  iss := ⟨0, 0, 0, 0⟩
  lastport := 1024
  buf := buf

end Tcp
