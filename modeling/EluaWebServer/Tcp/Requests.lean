import EluaWebServer.Tcp.Process

/-!
# What the application can do to a connection

Whatever the application asks for when it is called, of its connection only the bit
`UIP_STOPPED` changes in the call.  What is done about the requests afterwards closes the
connection, begins to close it, or makes data outstanding.
-/

namespace Tcp

open TcpState

variable {c : Config}

theorem conn_request (x : Ctx) (call : Call) :
    ∃ b, (x.request call).conn = { x.conn with stopped := b } := by
  cases call with
  | stop => exact ⟨true, rfl⟩
  | restart => exact ⟨false, rfl⟩
  | send bytes =>
      refine ⟨x.conn.stopped, ?_⟩
      unfold Ctx.request
      dsimp only
      split <;> rfl
  | _ => exact ⟨x.conn.stopped, rfl⟩

/-- In a call of the application only `UIP_STOPPED` changes. -/
theorem conn_appcall (x : Ctx) (calls : List Call) :
    ∃ b, (x.appcall calls).conn = { x.conn with stopped := b } := by
  induction calls generalizing x with
  | nil => exact ⟨x.conn.stopped, rfl⟩
  | cons call calls ih =>
      obtain ⟨b, hb⟩ := conn_request x call
      obtain ⟨b', hb'⟩ := ih (x.request call)
      exact ⟨b', hb'.trans (by rw [hb])⟩

theorem conn_notify (conn : Conn) (flags : UipFlags) (datalen : UInt16) (buf : List UInt8)
    (calls : List Call) :
    ∃ b, (notify conn flags datalen buf calls).1.conn = { conn with stopped := b } :=
  conn_appcall _ calls

theorem conn_take (x : Ctx) : ∃ len, x.take.conn = { x.conn with len := len } := by
  unfold Ctx.take
  dsimp only
  split_ifs
  · exact ⟨x.conn.len, rfl⟩
  all_goals exact ⟨_, rfl⟩

/-- What is done about the requests. -/
theorem conn_appsend (x : Ctx) :
    (appsend c x).1 = x.conn.enter CLOSED ∨
    (appsend c x).1 = { x.conn.enter FIN_WAIT_1 with len := 1, nrtx := 0 } ∨
    ∃ len, (appsend c x).1 = { x.conn with len := len, nrtx := 0 } := by
  unfold appsend
  split
  · exact .inl rfl
  · split
    · exact .inr (.inl rfl)
    · obtain ⟨len, hlen⟩ := conn_take x
      refine .inr (.inr ⟨len, ?_⟩)
      dsimp only
      rw [hlen]

/-- What a call of the application comes to when what it sends is sent. -/
theorem conn_converse (conn : Conn) (flags : UipFlags) (datalen : UInt16)
    (buf appdata : List UInt8) (calls : List Call) :
    (converse c conn flags datalen buf appdata calls).conn = conn.enter CLOSED ∨
    (converse c conn flags datalen buf appdata calls).conn =
      { conn.enter FIN_WAIT_1 with len := 1, nrtx := 0 } ∨
    ∃ b len, (converse c conn flags datalen buf appdata calls).conn =
      { conn with stopped := b, len := len, nrtx := 0 } := by
  obtain ⟨b, hb⟩ := conn_appcall ⟨conn, flags, 0, buf⟩ calls
  rcases conn_appsend (c := c) (Ctx.appcall ⟨conn, flags, 0, buf⟩ calls) with h | h | ⟨len, h⟩
  · refine .inl (h.trans ?_)
    rw [hb]
    rfl
  · refine .inr (.inl (h.trans ?_))
    rw [hb]
    rfl
  · refine .inr (.inr ⟨b, len, h.trans ?_⟩)
    rw [hb]

/-- The options say how long segments can be. -/
theorem conn_parseOptions {conn conn' : Conn} {seg : Segment} {buf : List UInt8}
    (h : parseOptions c seg buf conn = some conn') :
    conn' = conn ∨ ∃ mss, mss ≤ c.UIP_TCP_MSS ∧ conn' = { conn with initialmss := mss, mss := mss } := by
  unfold parseOptions at h
  split at h
  · rw [Option.map_eq_some_iff] at h
    obtain ⟨scan, -, rfl⟩ := h
    cases scan with
    | found mss =>
        refine .inr ⟨_, ?_, rfl⟩
        split
        · exact UInt16.le_refl _
        · exact UInt16.not_lt.mp ‹_›
    | _ => exact .inl rfl
  · exact .inl (Option.some.inj h).symm

theorem tcpstate_acked (conn : Conn) : conn.acked.tcpstate = conn.tcpstate := by
  unfold Conn.acked Conn.estimate
  dsimp only
  split <;> rfl

theorem rcvNxt_acked (conn : Conn) : conn.acked.rcvNxt = conn.rcvNxt := by
  unfold Conn.acked Conn.estimate
  dsimp only
  split <;> rfl

theorem tcpstate_receive (conn : Conn) (len : UInt16) :
    (conn.receive len).tcpstate = conn.tcpstate := by
  unfold Conn.receive
  split <;> rfl

end Tcp
