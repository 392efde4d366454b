import EluaWebServer.Tcp.Demux

/-!
# Data arrives in order

The segments of a peer can be lost, repeated and come in any order, among those of other peers.
What the application is given for a connection is still the beginning of what the peer of that
connection has sent, each byte once; while the connection is established no more is acknowledged
than has been given; and all has been given when the application is told that the peer has closed.
-/

namespace Tcp

open TcpState

variable {n : Nat} {c : Config}

/-! ## What is delivered -/

/-- The data that the application is called for. -/
def Event.bytes (e : Event) : List UInt8 :=
  if e.flags.newdata then e.appdata.take e.datalen.toNat else []

/-- The connections with the sequence numbers that their peers began with, and what has been
delivered since they were opened. -/
structure Streams (n : Nat) where
  world : World n
  irs : Fin n → Seqno
  delivered : Fin n → List UInt8

/-- The segment does not belong to the connection yet. -/
def opens (conn : Conn) (seg : Segment) : Bool := !conn.matches seg || conn.tcpstate = SYN_SENT

/-- What a segment means for the connection it has come to. -/
def Streams.receive (m : Streams n) (i : Fin n) (seg : Segment) (event : Option Event) : Streams n :=
  if opens (m.world.conns i) seg then
    { m with
      irs := Function.update m.irs i seg.seqno
      delivered := Function.update m.delivered i [] }
  else
    { m with
      delivered := Function.update m.delivered i
        (m.delivered i ++ (event.map Event.bytes).getD []) }

/-- Of an action only segments matter; nothing is delivered while a connection is being opened. -/
def Streams.record (m : Streams n) (a : Action n) (o : Outcome n) : Streams n :=
  let m :=
    match a, o.index with
    | .input seg _, some i => m.receive i seg o.event
    | _, _ => m
  { m with
    world := o.world
    delivered := fun j => if (o.world.conns j).tcpstate = SYN_SENT then [] else m.delivered j }

def Streams.step (c : Config) (m : Streams n) (a : Action n) : Option (Streams n) :=
  (outcome c m.world a).map (m.record a)

def Streams.init (n ports : Nat) (buf : List UInt8) : Streams n where
  world := uipInit n ports buf
  irs := fun _ => ⟨0, 0, 0, 0⟩
  delivered := fun _ => []

/-- A segment of a peer that sends `s` from the sequence number after `irs` on, and then closes.  A
segment may repeat any part of it, and has neither options nor urgent data; a reset may come at any
time. -/
def FromPeer (s : List UInt8) (irs : Seqno) (seg : Segment) : Prop :=
  seg.flags.rst = true ∨
    (seg.tcpoffset = 5 ∧ seg.flags.urg = false ∧ seg.data.length < 65496 ∧
      ((seg.data = [] ∧ seg.flags.syn = false ∧ seg.flags.fin = false) ∨
       (seg.data = [] ∧ seg.flags.syn = true ∧ seg.flags.fin = false ∧ seg.seqno = irs) ∨
       (seg.flags.syn = false ∧ ∃ k, seg.seqno.value = (irs.value + 1 + k) % 2 ^ 32 ∧
          k + seg.data.length ≤ s.length ∧ seg.data = (s.drop k).take seg.data.length ∧
          (seg.flags.fin = true → k + seg.data.length = s.length))))

/-- The segments for open connections come from their peers. -/
def Genuine (stream : UipIpaddr × UInt16 × UInt16 → Seqno → List UInt8) (m : Streams n) :
    Action n → Prop
  | .input seg _ => ∀ i, demultiplex m.world.conns seg = some i →
      (m.world.conns i).tcpstate ≠ SYN_SENT →
      FromPeer (stream (m.world.conns i).ends (m.irs i)) (m.irs i) seg
  | _ => True

/-! ## One connection -/

/-- How far the stream has been received, in the states of the connection. -/
def Reception (s : List UInt8) (irs : Seqno) (conn : Conn) (delivered : List UInt8) : Prop :=
  delivered <+: s ∧
    match conn.tcpstate with
    | SYN_SENT => delivered = []
    | SYN_RCVD => delivered = [] ∧ conn.rcvNxt.value = (irs.value + 1) % 2 ^ 32
    | ESTABLISHED => conn.rcvNxt.value = (irs.value + 1 + delivered.length) % 2 ^ 32
    | LAST_ACK => delivered = s
    | _ => True

section

variable {s delivered : List UInt8} {irs : Seqno} {conn : Conn}

/-- States in which nothing is delivered any more. -/
theorem Reception.of_shut (h : delivered <+: s)
    (hstate : conn.tcpstate ≠ SYN_SENT ∧ conn.tcpstate ≠ SYN_RCVD ∧ conn.tcpstate ≠ ESTABLISHED ∧
      conn.tcpstate ≠ LAST_ACK) : Reception s irs conn delivered := by
  refine ⟨h, ?_⟩
  obtain ⟨h1, h2, h3, h4⟩ := hstate
  cases hs : conn.tcpstate <;> trivial

theorem Reception.of_established (h : delivered <+: s) (hstate : conn.tcpstate = ESTABLISHED)
    (hnxt : conn.rcvNxt.value = (irs.value + 1 + delivered.length) % 2 ^ 32) :
    Reception s irs conn delivered := by
  refine ⟨h, ?_⟩
  rw [hstate]
  exact hnxt

/-- Only the state and the next sequence number matter. -/
theorem Reception.congr (h : Reception s irs conn delivered) {conn' : Conn}
    (hstate : conn'.tcpstate = conn.tcpstate) (hnxt : conn'.rcvNxt = conn.rcvNxt) :
    Reception s irs conn' delivered := by
  unfold Reception at *
  rw [hstate, hnxt]
  exact h

theorem Reception.notify (h : Reception s irs conn delivered) (flags : UipFlags) (datalen : UInt16)
    (buf : List UInt8) (calls : List Call) :
    Reception s irs (notify conn flags datalen buf calls).1.conn delivered := by
  obtain ⟨b, hb⟩ := conn_notify conn flags datalen buf calls
  exact h.congr (by rw [hb]) (by rw [hb])

theorem Reception.converse (h : Reception s irs conn delivered) (flags : UipFlags)
    (datalen : UInt16) (buf appdata : List UInt8) (calls : List Call) :
    Reception s irs (converse c conn flags datalen buf appdata calls).conn delivered := by
  rcases conn_converse (c := c) conn flags datalen buf appdata calls with hb | hb | ⟨b, len, hb⟩
  · rw [hb]
    exact .of_shut h.1 (by simp [Conn.enter])
  · rw [hb]
    exact .of_shut h.1 (by simp [Conn.enter])
  · exact h.congr (by rw [hb]) (by rw [hb])

/-- The length of the data of a segment without options. -/
theorem toNat_datalen {seg : Segment} (hoffset : seg.tcpoffset = 5) (hlen : seg.data.length < 65496) :
    seg.datalen.toNat = seg.data.length := by
  unfold Segment.datalen Segment.uipLen UIP_IPH_LEN
  rw [hoffset, UInt16.toNat_sub, UInt16.toNat_sub, UInt16.toNat_ofNat', UInt16.toNat_ofNat']
  change (2 ^ 16 - 20 + (2 ^ 16 - 20 + (40 + seg.data.length) % 2 ^ 16) % 2 ^ 16) % 2 ^ 16 = _
  omega

/-- A segment that is not out of order, and takes sequence numbers, is the next one. -/
theorem seqno_of_inOrder {seg : Segment} (h : outOfOrder conn seg = false)
    (hstate : conn.tcpstate ≠ SYN_SENT)
    (htakes : seg.datalen ≠ 0 ∨ seg.flags.syn = true ∨ seg.flags.fin = true) :
    seg.seqno = conn.rcvNxt := by
  by_contra hne
  unfold outOfOrder at h
  rcases htakes with ht | ht | ht <;> simp [ht, hne, hstate] at h

/-- **The next segment.**  What a segment of the peer that is in order brings goes on where the
data before it has ended, and if it closes the connection nothing is missing. -/
theorem next_data {seg : Segment} (hshort : s.length + 2 < 2 ^ 32) (hfrom : FromPeer s irs seg)
    (hrst : seg.flags.rst = false) (hbegin : delivered <+: s)
    (hnxt : conn.rcvNxt.value = (irs.value + 1 + delivered.length) % 2 ^ 32)
    (hseq : seg.datalen ≠ 0 ∨ seg.flags.syn = true ∨ seg.flags.fin = true →
      seg.seqno = conn.rcvNxt) :
    seg.datalen.toNat = seg.data.length ∧ seg.urgent = 0 ∧ delivered ++ seg.data <+: s ∧
      (seg.flags.fin = true → delivered ++ seg.data = s) := by
  rcases hfrom with hrst' | ⟨hoffset, hurg, hlen, hfrom⟩
  · rw [hrst] at hrst'
    cases hrst'
  have hdatalen := toNat_datalen hoffset hlen
  have hurgent : seg.urgent = 0 := by rw [Segment.urgent, hurg, if_neg Bool.false_ne_true]
  have hdlen := hbegin.length_le
  have hirs := irs.value_lt
  refine ⟨hdatalen, hurgent, ?_⟩
  rcases hfrom with ⟨hdata, -, hfin⟩ | ⟨-, hsyn, -, hseqno⟩ | ⟨-, k, hk, hbound, hdata, hlast⟩
  · rw [hdata, List.append_nil, hfin]
    exact ⟨hbegin, fun h => by cases h⟩
  · -- the segment that opened the connection comes again
    have hsame := congrArg Seqno.value (hseqno.symm.trans (hseq (.inr (.inl hsyn))))
    omega
  · by_cases hnothing : seg.data = [] ∧ seg.flags.fin = false
    · rw [hnothing.1, List.append_nil, hnothing.2]
      exact ⟨hbegin, fun h => by cases h⟩
    have htakes : seg.datalen ≠ 0 ∨ seg.flags.syn = true ∨ seg.flags.fin = true := by
      by_cases hfin : seg.flags.fin = true
      · exact .inr (.inr hfin)
      · refine .inl fun hzero => hnothing ⟨?_, by simpa using hfin⟩
        rw [hzero] at hdatalen
        exact List.eq_nil_of_length_eq_zero hdatalen.symm
    have hkd : k = delivered.length := by
      have hsame := congrArg Seqno.value (hseq htakes)
      omega
    subst hkd
    have happend : delivered ++ seg.data = s.take (delivered.length + seg.data.length) := by
      obtain ⟨t, rfl⟩ := hbegin
      rw [List.drop_left] at hdata
      rw [List.take_length_add_append, ← hdata]
    rw [happend]
    refine ⟨List.take_prefix _ _, fun hfin => ?_⟩
    rw [hlast hfin, List.take_length]

/-- Where the next byte is expected when data has been received. -/
theorem value_receive {len : UInt16} {m : Nat} (h : conn.rcvNxt.value = m % 2 ^ 32) :
    (conn.receive len).rcvNxt.value = (m + len.toNat) % 2 ^ 32 := by
  unfold Conn.receive
  split
  next hzero =>
    have hlen : len.toNat = 0 := congrArg UInt16.toNat hzero
    rw [h, hlen, Nat.add_zero]
  next => rw [Conn.addRcvNxt, value_uipAdd32, h, Nat.mod_add_mod]

end

/-! ## A segment -/

section

variable {s delivered stale : List UInt8} {irs : Seqno} {conn : Conn} {seg : Segment}
  {calls : List Call}

/-- The data that is delivered. -/
theorem bytes_of_datalen (hdatalen : seg.datalen.toNat = seg.data.length) {flags : UipFlags}
    (hflags : flags.newdata = decide (seg.datalen ≠ 0)) (mss : UInt16) :
    Event.bytes ⟨flags, seg.datalen, mss, seg.data ++ stale⟩ = seg.data := by
  unfold Event.bytes
  dsimp only
  rw [hflags, hdatalen, List.take_left]
  by_cases hzero : seg.datalen = 0
  · rw [hzero] at hdatalen
    rw [List.eq_nil_of_length_eq_zero hdatalen.symm]
    exact ite_self _
  · rw [if_pos (decide_eq_true hzero)]

theorem bytes_converse (hdatalen : seg.datalen.toNat = seg.data.length) {flags : UipFlags}
    (hflags : flags.newdata = decide (seg.datalen ≠ 0)) (conn : Conn) (buf : List UInt8) :
    ((converse c conn flags seg.datalen buf (seg.data ++ stale) calls).event.map
      Event.bytes).getD [] = seg.data :=
  bytes_of_datalen hdatalen hflags conn.mss

theorem bytes_converse_nil {flags : UipFlags} (hflags : flags.newdata = false) (conn : Conn)
    (datalen : UInt16) (buf appdata : List UInt8) :
    ((converse c conn flags datalen buf appdata calls).event.map Event.bytes).getD [] = [] :=
  if_neg (by rw [hflags]; exact Bool.false_ne_true)

theorem Reception.synRcvd (hshort : s.length + 2 < 2 ^ 32) (h : Reception s irs conn delivered)
    (hstate : conn.tcpstate = SYN_RCVD) (hfrom : FromPeer s irs seg) (hrst : seg.flags.rst = false)
    (hseq : seg.datalen ≠ 0 ∨ seg.flags.syn = true ∨ seg.flags.fin = true →
      seg.seqno = conn.rcvNxt) (acked : Bool) :
    Reception s irs (synRcvd c conn acked seg (seg.data ++ stale) calls).conn
      (delivered ++ ((synRcvd c conn acked seg (seg.data ++ stale) calls).event.map
        Event.bytes).getD []) := by
  unfold Tcp.synRcvd
  cases acked with
  | false =>
      rw [if_neg Bool.false_ne_true]
      exact (List.append_nil delivered).symm ▸ h
  | true =>
      obtain ⟨hbegin, hnow⟩ := h
      rw [hstate] at hnow
      obtain ⟨hempty, hnxt⟩ := hnow
      subst hempty
      obtain ⟨hdatalen, -, happend, -⟩ := next_data hshort hfrom hrst hbegin
        (by rw [hnxt, List.length_nil, Nat.add_zero]) hseq
      rw [if_pos rfl]
      dsimp only
      rw [bytes_converse hdatalen rfl]
      refine Reception.converse (.of_established happend (tcpstate_receive _ _) ?_) ..
      rw [value_receive (m := irs.value + 1) (by exact hnxt), hdatalen, List.nil_append]

theorem Reception.established (hshort : s.length + 2 < 2 ^ 32) (h : Reception s irs conn delivered)
    (hstate : conn.tcpstate = ESTABLISHED) (hfrom : FromPeer s irs seg)
    (hrst : seg.flags.rst = false)
    (hseq : seg.datalen ≠ 0 ∨ seg.flags.syn = true ∨ seg.flags.fin = true →
      seg.seqno = conn.rcvNxt) (acked : Bool) :
    Reception s irs (established c conn acked seg (seg.data ++ stale) calls).conn
      (delivered ++ ((established c conn acked seg (seg.data ++ stale) calls).event.map
        Event.bytes).getD []) := by
  obtain ⟨hbegin, hnxt⟩ := id h
  rw [hstate] at hnxt
  dsimp only at hnxt
  obtain ⟨hdatalen, hurgent, happend, hlast⟩ := next_data hshort hfrom hrst hbegin hnxt hseq
  unfold Tcp.established
  split
  next hfin =>
    have hfin : seg.flags.fin = true := ((Bool.and_eq_true _ _).mp hfin).1
    unfold finished
    split
    · exact (List.append_nil delivered).symm ▸ h
    · dsimp only [Tcp.notify, Option.map_some, Option.getD_some]
      rw [bytes_of_datalen hdatalen rfl]
      exact ⟨happend, hlast hfin⟩
  next =>
    unfold exchanged
    rw [hurgent, UInt16.sub_zero, UInt16.toNat_zero, List.drop_zero]
    dsimp only
    by_cases hnew : (decide (seg.datalen ≠ 0) && !conn.stopped) = true
    · -- data that the connection takes
      have hne := ((Bool.and_eq_true _ _).mp hnew).1
      rw [hnew, Bool.true_or, if_pos rfl, if_pos rfl,
        bytes_converse hdatalen (by exact hne.symm)]
      refine Reception.converse (.of_established happend (by exact hstate) ?_) ..
      dsimp only [Conn.window, Conn.addRcvNxt]
      rw [value_uipAdd32, hnxt, Nat.mod_add_mod, hdatalen, List.length_append, ← Nat.add_assoc]
    · have hnew : (decide (seg.datalen ≠ 0) && !conn.stopped) = false := by simpa using hnew
      have hwindow : Reception s irs (conn.window seg.wnd) delivered := h.congr rfl rfl
      rw [hnew, Bool.false_or, if_neg Bool.false_ne_true]
      split
      · rw [bytes_converse_nil rfl, List.append_nil]
        exact hwindow.converse ..
      · exact (List.append_nil delivered).symm ▸ hwindow

/-- A state in which nothing is delivered any more, but for one that is reached with all data. -/
def closing (s : TcpState) : Prop := s ≠ SYN_SENT ∧ s ≠ SYN_RCVD ∧ s ≠ ESTABLISHED

theorem Reception.closedByPeer (hbegin : delivered <+: s) (conn : Conn)
    (hstate : closing conn.tcpstate) (hlast : conn.tcpstate ≠ LAST_ACK) (buf : List UInt8) :
    Reception s irs (closedByPeer c conn seg buf calls).conn
      (delivered ++ ((closedByPeer c conn seg buf calls).event.map Event.bytes).getD []) := by
  obtain ⟨b, hb⟩ := conn_notify (conn.addRcvNxt 1) { close := true } seg.datalen buf calls
  refine (List.append_nil delivered).symm ▸ .of_shut hbegin ?_
  dsimp only [Tcp.closedByPeer, sendAck]
  rw [hb]
  exact ⟨hstate.1, hstate.2.1, hstate.2.2, hlast⟩

/-- When the program or the peer has closed the connection, nothing is delivered any more. -/
theorem Reception.closing (h : Reception s irs conn delivered) (hstate : closing conn.tcpstate)
    {acked : Bool} {buf : List UInt8} {r : Result}
    (hr : byState c conn acked seg buf calls = some r) :
    Reception s irs r.conn (delivered ++ (r.event.map Event.bytes).getD []) := by
  have hsame : ∀ r : Result, r.conn = conn → r.event = none →
      Reception s irs r.conn (delivered ++ (r.event.map Event.bytes).getD []) := by
    intro r hconn hevent
    rw [hconn, hevent]
    exact (List.append_nil delivered).symm ▸ h
  have hover : ∀ r : Result, r.event = none → r.conn.tcpstate ≠ LAST_ACK →
      Tcp.closing r.conn.tcpstate →
      Reception s irs r.conn (delivered ++ (r.event.map Event.bytes).getD []) := by
    intro r hevent hlast hclosing
    rw [hevent]
    exact (List.append_nil delivered).symm ▸
      .of_shut h.1 ⟨hclosing.1, hclosing.2.1, hclosing.2.2, hlast⟩
  unfold byState at hr
  cases hs : conn.tcpstate <;> rw [hs] at hr hstate <;> dsimp only at hr
  case SYN_RCVD => exact absurd rfl hstate.2.1
  case SYN_SENT => exact absurd rfl hstate.1
  case ESTABLISHED => exact absurd rfl hstate.2.2
  case LAST_ACK =>
    rw [← Option.some.inj hr, lastAck]
    split
    · obtain ⟨b, hb⟩ := conn_notify (conn.enter CLOSED) { close := true } seg.datalen buf calls
      refine (List.append_nil delivered).symm ▸ .of_shut h.1 ?_
      dsimp only
      rw [hb]
      simp [Conn.enter]
    · exact hsame _ rfl rfl
  case FIN_WAIT_1 =>
    rw [← Option.some.inj hr, finWait1]
    have hreceive := (tcpstate_receive conn seg.datalen).trans hs
    generalize conn.receive seg.datalen = conn' at hreceive
    dsimp only
    split
    · cases acked <;> exact .closedByPeer h.1 _ (by simp [Conn.enter, Conn.timeWait, Tcp.closing])
        (by simp [Conn.enter, Conn.timeWait]) _
    · split
      · exact hover _ rfl (by simp [drop, Conn.enter]) (by simp [drop, Conn.enter, Tcp.closing])
      · split <;> exact hover _ rfl (by simp [drop, sendAck, hreceive])
          (by simp [drop, sendAck, hreceive, Tcp.closing])
  case FIN_WAIT_2 =>
    rw [← Option.some.inj hr, finWait2]
    have hreceive := (tcpstate_receive conn seg.datalen).trans hs
    generalize conn.receive seg.datalen = conn' at hreceive
    split
    · exact .closedByPeer h.1 _ (by simp [Conn.enter, Conn.timeWait, Tcp.closing])
        (by simp [Conn.enter, Conn.timeWait]) _
    · split <;> exact hover _ rfl (by simp [drop, sendAck, hreceive])
        (by simp [drop, sendAck, hreceive, Tcp.closing])
  case CLOSING =>
    rw [← Option.some.inj hr, drop]
    cases acked
    · exact hsame _ rfl rfl
    · exact hover _ rfl (by simp [Conn.enter, Conn.timeWait])
        (by simp [Conn.enter, Conn.timeWait, Tcp.closing])
  all_goals
    rw [← Option.some.inj hr]
    exact hsame _ rfl rfl

/-- **One segment.**  Whatever the state of the connection, a segment of its peer keeps the delivered
data the beginning of the stream. -/
theorem Reception.found (hshort : s.length + 2 < 2 ^ 32) (h : Reception s irs conn delivered)
    (hstate : conn.tcpstate ≠ SYN_SENT) (hfrom : FromPeer s irs seg) {r : Result}
    (hr : found c conn seg (seg.data ++ stale) calls = some r) :
    Reception s irs r.conn (delivered ++ (r.event.map Event.bytes).getD []) := by
  unfold Tcp.found at hr
  split at hr
  · -- a reset
    obtain ⟨b, hb⟩ := conn_notify (conn.enter CLOSED) { abort := true } seg.uipLen
      (seg.data ++ stale) calls
    rw [← Option.some.inj hr]
    refine (List.append_nil delivered).symm ▸ .of_shut h.1 ?_
    dsimp only
    rw [hb]
    simp [Conn.enter]
  next hrst =>
    have hrst : seg.flags.rst = false := by simpa using hrst
    split at hr
    · rw [← Option.some.inj hr]
      exact (List.append_nil delivered).symm ▸ h
    next horder =>
      have horder : outOfOrder conn seg = false := by simpa using horder
      have hseq := seqno_of_inOrder horder hstate
      -- what is acknowledged does not matter here
      have hmain : ∀ (conn' : Conn) (acked : Bool), conn'.tcpstate = conn.tcpstate →
          conn'.rcvNxt = conn.rcvNxt →
          byState c conn' acked seg (seg.data ++ stale) calls = some r →
          Reception s irs r.conn (delivered ++ (r.event.map Event.bytes).getD []) := by
        intro conn' acked hstate' hnxt' hr
        have h' := h.congr hstate' hnxt'
        rw [← hnxt'] at hseq
        rw [← hstate'] at hstate
        by_cases hsyn : conn'.tcpstate = SYN_RCVD
        · rw [byState, hsyn] at hr
          rw [← Option.some.inj hr]
          exact h'.synRcvd hshort hsyn hfrom hrst hseq acked
        by_cases hest : conn'.tcpstate = ESTABLISHED
        · rw [byState, hest] at hr
          rw [← Option.some.inj hr]
          exact h'.established hshort hest hfrom hrst hseq acked
        · exact h'.closing ⟨hstate, hsyn, hest⟩ hr
      split at hr
      · exact hmain _ true (tcpstate_acked conn) (rcvNxt_acked conn) hr
      · exact hmain _ false rfl rfl hr

/-- Nothing has been delivered when the peer answers. -/
theorem Reception.synSent (hstate : conn.tcpstate = SYN_SENT) (s : List UInt8) {buf : List UInt8}
    {r : Result} (hr : Tcp.found c conn seg buf calls = some r) :
    Reception s seg.seqno r.conn [] := by
  have hclosed : ∀ conn' : Conn, conn'.tcpstate = CLOSED → Reception s seg.seqno conn' [] := by
    intro conn' hs
    exact .of_shut List.nil_prefix (by simp [hs])
  have hsent : ∀ conn' : Conn, conn'.tcpstate = SYN_SENT →
      byState c conn' (acknowledges conn seg) seg buf calls = some r →
      Reception s seg.seqno r.conn [] := by
    intro conn' hs hr
    rw [byState, hs] at hr
    dsimp only [Tcp.synSent] at hr
    split at hr
    · obtain ⟨conn'', hparse, rfl⟩ := Option.map_eq_some_iff.mp hr
      refine Reception.converse (.of_established List.nil_prefix rfl ?_) ..
      dsimp only
      rw [value_uipAdd32, List.length_nil, Nat.add_zero]
      rfl
    · rw [← Option.some.inj hr]
      exact hclosed _ rfl
  unfold Tcp.found at hr
  split at hr
  · obtain ⟨b, hb⟩ := conn_notify (conn.enter CLOSED) { abort := true } seg.uipLen buf calls
    rw [← Option.some.inj hr]
    refine hclosed _ ?_
    dsimp only
    rw [hb]
    rfl
  split at hr
  · rw [← Option.some.inj hr]
    refine ⟨List.nil_prefix, ?_⟩
    dsimp only [sendAck]
    rw [hstate]
  split at hr
  next hack => exact hsent _ ((tcpstate_acked conn).trans hstate) (by rw [hack]; exact hr)
  next hack =>
    exact hsent _ hstate (by rw [Bool.eq_false_iff.mpr hack]; exact hr)

theorem Reception.retransmit (h : Reception s irs conn delivered) (buf : List UInt8) :
    Reception s irs (retransmit c conn buf calls).conn delivered := by
  unfold Tcp.retransmit
  split
  case h_3 => exact h.notify ..
  all_goals exact h

/-- The timer delivers nothing. -/
theorem Reception.periodic (h : Reception s irs conn delivered) (forced : Bool) (buf : List UInt8) :
    Reception s irs (periodic c forced conn buf calls).conn delivered := by
  unfold Tcp.periodic
  split
  next hwait =>
    have hwait : conn.is TIME_WAIT = true ∨ conn.is FIN_WAIT_2 = true := by
      simpa using ((Bool.and_eq_true _ _).mp hwait).2
    have hstate : conn.tcpstate = TIME_WAIT ∨ conn.tcpstate = FIN_WAIT_2 := by
      simpa [Conn.is] using hwait.imp (fun h => (of_decide_eq_true ((Bool.and_eq_true _ _).mp h).1))
        (fun h => (of_decide_eq_true ((Bool.and_eq_true _ _).mp h).1))
    refine .of_shut h.1 ?_
    dsimp only [drop]
    split
    · simp [Conn.enter]
    · rcases hstate with hs | hs <;> simp [hs]
  split
  · split
    · split
      · unfold timedOut
        split
        · refine (Reception.notify ?_ ..)
          exact .of_shut h.1 (by simp [Conn.enter])
        · refine Reception.retransmit ?_ _
          exact h.congr rfl rfl
      · exact h.congr rfl rfl
    · split
      · exact h.converse ..
      · exact h
  · exact h

end

/-! ## All connections -/

section

variable {stream : UipIpaddr × UInt16 × UInt16 → Seqno → List UInt8}

/-- Every connection receives the stream of its own peer. -/
def Receptions (stream : UipIpaddr × UInt16 × UInt16 → Seqno → List UInt8) (conns : Fin n → Conn)
    (irs : Fin n → Seqno) (delivered : Fin n → List UInt8) : Prop :=
  ∀ j, Reception (stream (conns j).ends (irs j)) (irs j) (conns j) (delivered j)

theorem Receptions.update {conns : Fin n → Conn} {irs : Fin n → Seqno}
    {delivered : Fin n → List UInt8} (h : Receptions stream conns irs delivered) {i : Fin n}
    {conn : Conn} {q : Seqno} {d : List UInt8} (hi : Reception (stream conn.ends q) q conn d) :
    Receptions stream (Function.update conns i conn) (Function.update irs i q)
      (Function.update delivered i d) := by
  intro j
  by_cases hj : j = i
  · subst hj
    simp only [Function.update_self]
    exact hi
  · simp only [Function.update_of_ne hj]
    exact h j

/-- A connection that is changed while nothing is delivered to it. -/
theorem Receptions.update_conn {conns : Fin n → Conn} {irs : Fin n → Seqno}
    {delivered : Fin n → List UInt8} (h : Receptions stream conns irs delivered) {i : Fin n}
    {conn : Conn} (hi : Reception (stream conn.ends (irs i)) (irs i) conn (delivered i)) :
    Receptions stream (Function.update conns i conn) irs delivered := by
  have hupdate := h.update (i := i) hi
  rwa [Function.update_eq_self, Function.update_eq_self] at hupdate

/-- While a connection is being opened nothing has been delivered. -/
theorem Receptions.opening {conns : Fin n → Conn} {irs : Fin n → Seqno}
    {delivered : Fin n → List UInt8}
    (h : ∀ j, (conns j).tcpstate ≠ SYN_SENT →
      Reception (stream (conns j).ends (irs j)) (irs j) (conns j) (delivered j)) :
    Receptions stream conns irs
      fun j => if (conns j).tcpstate = SYN_SENT then [] else delivered j := by
  intro j
  by_cases hj : (conns j).tcpstate = SYN_SENT
  · simp only [if_pos hj]
    refine ⟨List.nil_prefix, ?_⟩
    rw [hj]
  · simp only [if_neg hj]
    exact h j hj

theorem Receptions.uipInput {m : Streams n} {seg : Segment} {calls : List Call} {o : Outcome n}
    (hshort : ∀ e q, (stream e q).length + 2 < 2 ^ 32)
    (h : Receptions stream m.world.conns m.irs m.delivered)
    (hgenuine : Genuine stream m (.input seg calls))
    (ho : uipInput c m.world seg calls = some o) :
    Receptions stream o.world.conns (m.record (.input seg calls) o).irs
      (m.record (.input seg calls) o).delivered := by
  refine .opening fun j _ => ?_
  unfold Tcp.uipInput at ho
  dsimp only at ho
  split at ho
  · rw [← Option.some.inj ho]
    exact h j
  split at ho
  next i hi =>
    obtain ⟨r, hr, rfl⟩ := Option.map_eq_some_iff.mp ho
    have hends := ends_found hr
    dsimp only [World.result, World.set, Streams.record, Streams.receive]
    by_cases hsent : (m.world.conns i).tcpstate = SYN_SENT
    · have hopens : opens (m.world.conns i) seg = true := by simp [opens, hsent]
      rw [if_pos hopens]
      exact h.update (i := i) (Reception.synSent hsent _ hr) j
    · have hopens : ¬ opens (m.world.conns i) seg = true := by
        simp [opens, hsent, active_of_demultiplex hi]
      rw [if_neg hopens]
      have hfound := (h i).found (hshort _ _) hsent (hgenuine i hi hsent) hr
      rw [← hends] at hfound
      have hupdate := h.update (i := i) hfound
      rw [Function.update_eq_self] at hupdate
      exact hupdate j
  next hnone =>
    split at ho
    · split at ho
      · rw [← Option.some.inj ho]
        exact h j
      next i _ =>
        obtain ⟨conn, hconn, rfl⟩ := Option.map_eq_some_iff.mp ho
        have hopens : opens (m.world.conns i) seg = true := by
          simp [opens, demultiplex_eq_none hnone i]
        dsimp only [World.result, World.set, Streams.record, Streams.receive]
        rw [if_pos hopens]
        refine h.update (i := i) ⟨List.nil_prefix, ?_⟩ j
        have haccept := value_uipAdd32 seg.seqno 1
        rcases conn_parseOptions hconn with rfl | ⟨mss, -, rfl⟩ <;> exact ⟨rfl, haccept⟩
    · rw [← Option.some.inj ho]
      exact h j

theorem Receptions.step (hshort : ∀ e q, (stream e q).length + 2 < 2 ^ 32) {m m' : Streams n}
    {a : Action n} (h : Receptions stream m.world.conns m.irs m.delivered)
    (hgenuine : Genuine stream m a) (hstep : m.step c a = some m') :
    Receptions stream m'.world.conns m'.irs m'.delivered := by
  obtain ⟨o, ho, rfl⟩ := Option.map_eq_some_iff.mp hstep
  cases a with
  | input seg calls => exact h.uipInput hshort hgenuine ho
  | periodic i forced calls =>
      obtain rfl := Option.some.inj ho
      refine .opening fun j _ => h.update_conn ?_ j
      have hperiodic : Reception _ _ (periodic c forced (m.world.conns i) m.world.buf calls).conn _ :=
        (h i).periodic forced m.world.buf
      rwa [← ends_periodic (c := c) (m.world.conns i) forced m.world.buf calls] at hperiodic
  | connect ripaddr rport =>
      dsimp only [outcome, uipConnect] at ho
      rw [Option.map_map] at ho
      obtain ⟨port, -, rfl⟩ := Option.map_eq_some_iff.mp ho
      refine .opening fun j hj => ?_
      dsimp only [Streams.record, Function.comp_apply, World.ignore] at hj ⊢
      split at hj
      · exact h j
      next i _ =>
        dsimp only [World.set] at hj ⊢
        by_cases hji : j = i
        · rw [hji, Function.update_self] at hj
          exact absurd rfl hj
        · rw [Function.update_of_ne hji]
          exact h j
  | connectSocket i ripaddr rport =>
      dsimp only [outcome, uipConnectSocket] at ho
      split at ho
      · rw [Option.map_map] at ho
        obtain ⟨port, -, rfl⟩ := Option.map_eq_some_iff.mp ho
        refine .opening fun j hj => ?_
        dsimp only [Streams.record, Function.comp_apply, World.ignore, World.set] at hj ⊢
        by_cases hji : j = i
        · rw [hji, Function.update_self] at hj
          exact absurd rfl hj
        · rw [Function.update_of_ne hji]
          exact h j
      · obtain rfl := Option.some.inj ho
        exact .opening fun j _ => h j
  | socket =>
      obtain rfl := Option.some.inj ho
      refine .opening fun j _ => ?_
      dsimp only [World.ignore, eluaNetSocket]
      split
      · exact h j
      next i hi =>
        refine h.update_conn ?_ j
        exact .of_shut (h i).1 (by simp [Conn.enter])
  | listen port =>
      obtain rfl := Option.some.inj ho
      refine .opening fun j _ => ?_
      dsimp only [World.ignore, uipListen]
      split <;> exact h j
  | unlisten port =>
      obtain rfl := Option.some.inj ho
      refine .opening fun j _ => ?_
      dsimp only [World.ignore, uipUnlisten]
      split <;> exact h j

theorem Receptions.init (ports : Nat) (buf : List UInt8) :
    Receptions stream (Streams.init n ports buf).world.conns (Streams.init n ports buf).irs
      (Streams.init n ports buf).delivered :=
  fun _ => .of_shut List.nil_prefix (by simp [Streams.init, uipInit, Conn.unused])

/-- The peer acknowledges that the connection is open and sends two bytes. -/
def sampleData : Segment :=
  { sampleSyn with
    seqno := ⟨0, 0, 1, 1⟩
    ackno := ⟨0, 0, 0, 1⟩
    flags := { ack := true, psh := true }
    data := [104, 105] }

def sampleExchange : List (Action 4) := [.listen 80, .input sampleSyn [], .input sampleData []]

end

end Tcp
