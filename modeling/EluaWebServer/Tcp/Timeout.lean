import EluaWebServer.Tcp.Demux
import Mathlib.Tactic.IntervalCases

/-!
# Connections that wait

A connection that waits for an acknowledgement, or for the end of the time that a closed one is
kept, does not wait for ever: if the peer is silent it is closed after a number of ticks of the timer
that is known from its fields, whatever the application does when it is called.
-/

namespace Tcp

open TcpState

variable {n : Nat} {c : Config}

/-! ## Counting retransmissions -/

/-- The connection is being opened. -/
def Conn.opening (conn : Conn) : Prop := conn.tcpstate = SYN_SENT ∨ conn.tcpstate = SYN_RCVD

/-- No segment has been sent more often than it is allowed to be. -/
def Conn.Counted (conn : Conn) : Prop :=
  conn.nrtx.toNat ≤ 8 ∧ (conn.opening → conn.stopped = false ∧ conn.nrtx.toNat ≤ 5)

/-- What a segment or the application does to a connection: it does not count up, and a connection
that is being opened afterwards has been so before. -/
def Keeps (conn conn' : Conn) : Prop :=
  conn'.nrtx.toNat ≤ conn.nrtx.toNat ∧
    (conn'.opening → conn'.tcpstate = conn.tcpstate ∧ conn'.stopped = conn.stopped)

theorem Keeps.refl (conn : Conn) : Keeps conn conn := ⟨le_rfl, fun _ => ⟨rfl, rfl⟩⟩

theorem Keeps.of_opened {conn conn' : Conn} (hnrtx : conn'.nrtx.toNat ≤ conn.nrtx.toNat)
    (hopened : ¬ conn'.opening) : Keeps conn conn' := ⟨hnrtx, fun h => absurd h hopened⟩

theorem Keeps.trans {conn conn' conn'' : Conn} (h : Keeps conn conn') (h' : Keeps conn' conn'') :
    Keeps conn conn'' := by
  refine ⟨h'.1.trans h.1, fun hopening => ?_⟩
  obtain ⟨hstate, hstopped⟩ := h'.2 hopening
  have hbefore : conn'.opening := by
    unfold Conn.opening at *
    rwa [← hstate]
  exact ⟨hstate.trans (h.2 hbefore).1, hstopped.trans (h.2 hbefore).2⟩

theorem Conn.Counted.of_keeps {conn conn' : Conn} (h : conn.Counted) (hkeeps : Keeps conn conn') :
    conn'.Counted := by
  refine ⟨hkeeps.1.trans h.1, fun hopening => ?_⟩
  obtain ⟨hstate, hstopped⟩ := hkeeps.2 hopening
  have hbefore : conn.opening := by
    unfold Conn.opening at *
    rwa [← hstate]
  exact ⟨hstopped.trans (h.2 hbefore).1, hkeeps.1.trans (h.2 hbefore).2⟩

theorem keeps_notify {conn : Conn} (h : ¬ conn.opening) (flags : UipFlags) (datalen : UInt16)
    (buf : List UInt8) (calls : List Call) :
    Keeps conn (notify conn flags datalen buf calls).1.conn := by
  obtain ⟨b, hb⟩ := conn_notify conn flags datalen buf calls
  rw [hb]
  exact .of_opened le_rfl h

theorem keeps_converse {conn : Conn} (h : ¬ conn.opening) (flags : UipFlags) (datalen : UInt16)
    (buf appdata : List UInt8) (calls : List Call) :
    Keeps conn (converse c conn flags datalen buf appdata calls).conn := by
  rcases conn_converse (c := c) conn flags datalen buf appdata calls with hb | hb | ⟨b, len, hb⟩
  · rw [hb]
    exact .of_opened le_rfl (by simp [Conn.opening, Conn.enter])
  · rw [hb]
    exact .of_opened (Nat.zero_le _) (by simp [Conn.opening, Conn.enter])
  · rw [hb]
    exact .of_opened (Nat.zero_le _) h

/-- A connection that enters a state in which it is not being opened. -/
theorem keeps_enter (conn : Conn) {s : TcpState} (hsent : s ≠ SYN_SENT) (hrcvd : s ≠ SYN_RCVD) :
    Keeps conn (conn.enter s) :=
  .of_opened le_rfl fun h => h.elim hsent hrcvd

theorem keeps_acked (conn : Conn) : Keeps conn conn.acked := by
  unfold Conn.acked Conn.estimate
  dsimp only
  split <;> exact ⟨le_rfl, fun _ => ⟨rfl, rfl⟩⟩

theorem keeps_receive (conn : Conn) (len : UInt16) : Keeps conn (conn.receive len) := by
  unfold Conn.receive
  split <;> exact ⟨le_rfl, fun _ => ⟨rfl, rfl⟩⟩

theorem keeps_timeWait (conn : Conn) : Keeps conn conn.timeWait :=
  .of_opened le_rfl (by simp [Conn.opening, Conn.timeWait, Conn.enter])

theorem keeps_parseOptions {conn conn' : Conn} {seg : Segment} {buf : List UInt8}
    (h : parseOptions c seg buf conn = some conn') : Keeps conn conn' := by
  rcases conn_parseOptions h with rfl | ⟨mss, -, rfl⟩ <;> exact ⟨le_rfl, fun _ => ⟨rfl, rfl⟩⟩

section

variable {conn : Conn} {seg : Segment} {buf : List UInt8} {calls : List Call}

theorem keeps_synRcvd (acked : Bool) : Keeps conn (synRcvd c conn acked seg buf calls).conn := by
  unfold synRcvd
  split
  · dsimp only
    have hopened : ∃ conn', conn' = { conn.enter ESTABLISHED with len := 0 } := ⟨_, rfl⟩
    obtain ⟨conn', hconn'⟩ := hopened
    have hstate : conn'.tcpstate = ESTABLISHED := by rw [hconn']; rfl
    have hnrtx : conn'.nrtx = conn.nrtx := by rw [hconn']; rfl
    rw [← hconn']
    have hopened : Keeps conn conn' := .of_opened (by rw [hnrtx]) (by simp [Conn.opening, hstate])
    exact (hopened.trans (keeps_receive conn' seg.datalen)).trans
      (keeps_converse (by simp [Conn.opening, tcpstate_receive, hstate]) ..)
  · exact .refl conn

theorem keeps_synSent {acked : Bool} {r : Result}
    (h : synSent c conn acked seg buf calls = some r) : Keeps conn r.conn := by
  unfold synSent at h
  split at h
  · obtain ⟨conn', hparse, rfl⟩ := Option.map_eq_some_iff.mp h
    have hentered : Keeps conn'
        { conn'.enter ESTABLISHED with rcvNxt := uipAdd32 seg.seqno 1, len := 0 } :=
      .of_opened le_rfl (by simp [Conn.opening, Conn.enter])
    exact ((keeps_parseOptions hparse).trans hentered).trans
      (keeps_converse (by simp [Conn.opening, Conn.enter]) ..)
  · obtain ⟨b, hb⟩ := conn_notify conn { abort := true } seg.datalen buf calls
    rw [← Option.some.inj h]
    dsimp only
    rw [hb]
    exact .of_opened le_rfl (by simp [Conn.opening, Conn.enter])

theorem keeps_established (hstate : ¬ conn.opening) (acked : Bool) :
    Keeps conn (established c conn acked seg buf calls).conn := by
  unfold established finished exchanged
  split
  · split
    · exact .refl conn
    · dsimp only
      obtain ⟨b, hb⟩ := conn_notify (conn.addRcvNxt (1 + seg.datalen))
        { ackdata := acked, close := true, newdata := seg.datalen ≠ 0 } seg.datalen buf calls
      rw [hb]
      exact .of_opened (Nat.zero_le _) (by simp [Conn.opening, Conn.enter])
  · dsimp only
    generalize seg.datalen - seg.urgent = len
    have hconn : ∀ b : Bool, Keeps conn ((if b = true then conn.addRcvNxt len else conn).window seg.wnd)
        ∧ ¬ ((if b = true then conn.addRcvNxt len else conn).window seg.wnd).opening := by
      intro b
      cases b <;> exact ⟨⟨le_rfl, fun _ => ⟨rfl, rfl⟩⟩, hstate⟩
    split
    · exact (hconn _).1.trans (keeps_converse (hconn _).2 ..)
    · exact (hconn _).1

theorem keeps_lastAck (acked : Bool) : Keeps conn (lastAck conn acked seg buf calls).conn := by
  unfold lastAck
  split
  · exact (keeps_enter conn (by simp) (by simp)).trans
      (keeps_notify (by simp [Conn.opening, Conn.enter]) ..)
  · exact .refl conn

theorem keeps_closedByPeer (hstate : ¬ conn.opening) :
    Keeps conn (closedByPeer c conn seg buf calls).conn := by
  have hnxt : Keeps conn (conn.addRcvNxt 1) := ⟨le_rfl, fun _ => ⟨rfl, rfl⟩⟩
  have hopened : ¬ (conn.addRcvNxt 1).opening := hstate
  exact hnxt.trans (keeps_notify hopened ..)

theorem keeps_finWait1 (acked : Bool) : Keeps conn (finWait1 c conn acked seg buf calls).conn := by
  have hreceive := keeps_receive conn seg.datalen
  unfold finWait1
  generalize conn.receive seg.datalen = conn' at hreceive ⊢
  refine hreceive.trans ?_
  dsimp only
  split
  · cases acked with
    | true =>
        have hwait : Keeps conn' { conn'.timeWait with len := 0 } := keeps_timeWait conn'
        exact hwait.trans (keeps_closedByPeer (by simp [Conn.opening, Conn.timeWait, Conn.enter]))
    | false =>
        exact (keeps_enter conn' (by simp) (by simp)).trans
          (keeps_closedByPeer (by simp [Conn.opening, Conn.enter]))
  split
  · exact .of_opened le_rfl (by simp [drop, Conn.opening, Conn.enter])
  split <;> exact .refl conn'

theorem keeps_finWait2 : Keeps conn (finWait2 c conn seg buf calls).conn := by
  have hreceive := keeps_receive conn seg.datalen
  unfold finWait2
  generalize conn.receive seg.datalen = conn' at hreceive ⊢
  refine hreceive.trans ?_
  split
  · exact (keeps_timeWait conn').trans
      (keeps_closedByPeer (by simp [Conn.opening, Conn.timeWait, Conn.enter]))
  split <;> exact .refl conn'

theorem keeps_byState {acked : Bool} {r : Result}
    (h : byState c conn acked seg buf calls = some r) : Keeps conn r.conn := by
  unfold byState at h
  cases hs : conn.tcpstate <;> rw [hs] at h <;> dsimp only at h
  case SYN_SENT => exact keeps_synSent h
  all_goals rw [← Option.some.inj h]
  case SYN_RCVD => exact keeps_synRcvd acked
  case ESTABLISHED => exact keeps_established (by simp [Conn.opening, hs]) acked
  case LAST_ACK => exact keeps_lastAck acked
  case FIN_WAIT_1 => exact keeps_finWait1 acked
  case FIN_WAIT_2 => exact keeps_finWait2
  case CLOSING =>
    cases acked
    · exact .refl conn
    · exact keeps_timeWait conn
  all_goals exact .refl conn

/-- A segment does not count up. -/
theorem keeps_found {r : Result} (h : found c conn seg buf calls = some r) : Keeps conn r.conn := by
  unfold found at h
  split at h
  · rw [← Option.some.inj h]
    exact (keeps_enter conn (by simp) (by simp)).trans
      (keeps_notify (by simp [Conn.opening, Conn.enter]) ..)
  split at h
  · rw [← Option.some.inj h]
    exact .refl conn
  split at h
  · exact (keeps_acked conn).trans (keeps_byState h)
  · exact keeps_byState h

end

/-! ## The timer -/

/-- How often a segment is sent again. -/
def Conn.tries (conn : Conn) : Nat := if conn.is SYN_SENT || conn.is SYN_RCVD then 5 else 8

/-- The time until a segment is sent again. -/
def backoff (nrtx : Nat) : Nat := 3 * 2 ^ min nrtx 4

/-- The time for a number of retransmissions. -/
def retries (nrtx : Nat) : Nat → Nat
  | 0 => 0
  | k + 1 => backoff nrtx + 1 + retries (nrtx + 1) k

/-- The connection is in one of the states that end after a time. -/
def Conn.lingers (conn : Conn) : Bool := conn.is TIME_WAIT || conn.is FIN_WAIT_2

/-- The connection waits for an acknowledgement, or for the end of such a time. -/
def Conn.waiting (conn : Conn) : Bool := conn.lingers || (conn.active && conn.outstanding)

/-- After how many ticks it is closed. -/
def Conn.deadline (conn : Conn) : Nat :=
  if conn.lingers then (UIP_TIME_WAIT_TIMEOUT - 1 - conn.timer).toNat + 1
  else conn.timer.toNat + 1 + retries conn.nrtx.toNat (conn.tries - conn.nrtx.toNat)

/-- No connection waits for longer than 501 ticks. -/
theorem deadline_le {conn : Conn} (h : conn.Counted) : conn.deadline ≤ 501 := by
  have htimer := conn.timer.toNat_lt
  unfold Conn.deadline
  split
  · have hleft := (UIP_TIME_WAIT_TIMEOUT - 1 - conn.timer).toNat_lt
    omega
  · have hretries : retries conn.nrtx.toNat (conn.tries - conn.nrtx.toNat) ≤ 245 := by
      have hle := h.1
      have htries : conn.tries = 5 ∨ conn.tries = 8 := by
        unfold Conn.tries
        split
        · exact .inl rfl
        · exact .inr rfl
      generalize conn.nrtx.toNat = k at hle ⊢
      rcases htries with ht | ht <;> rw [ht] <;> interval_cases k <;> decide
    omega

theorem toNat_timer {nrtx : UInt8} (h : nrtx.toNat < 8) :
    (UIP_RTO <<< (if 4 < nrtx then 4 else nrtx)).toNat = backoff nrtx.toNat := by
  have hnrtx : nrtx = UInt8.ofNat nrtx.toNat := UInt8.ofNat_toNat.symm
  rw [hnrtx]
  generalize nrtx.toNat = k at h
  interval_cases k <;> rfl

theorem toNat_pred {x : UInt8} (h : x ≠ 0) : (x - 1).toNat + 1 = x.toNat := by
  have hx := x.toNat_lt
  have hpos : x.toNat ≠ 0 := fun h' => h (UInt8.toNat_inj.mp h')
  rw [UInt8.toNat_sub]
  change (2 ^ 8 - 1 + x.toNat) % 2 ^ 8 + 1 = _
  omega

/-- A connection that lingers has one tick less when its timer has gone on. -/
theorem toNat_lingering {x : UInt8} (h : x + 1 ≠ UIP_TIME_WAIT_TIMEOUT) :
    (UIP_TIME_WAIT_TIMEOUT - 1 - (x + 1)).toNat + 1 = (UIP_TIME_WAIT_TIMEOUT - 1 - x).toNat := by
  have hx := x.toNat_lt
  have hne : (x.toNat + 1) % 2 ^ 8 ≠ 120 := by
    intro heq
    exact h (UInt8.toNat_inj.mp ((UInt8.toNat_add x 1).trans heq))
  rw [UInt8.toNat_sub, UInt8.toNat_sub _ x, UInt8.toNat_add]
  change (2 ^ 8 - (x.toNat + 1) % 2 ^ 8 + 119) % 2 ^ 8 + 1 = (2 ^ 8 - x.toNat + 119) % 2 ^ 8
  omega

theorem toNat_succ {x : UInt8} (h : x.toNat < 255) : (x + 1).toNat = x.toNat + 1 := by
  rw [UInt8.toNat_add]
  change (x.toNat + 1) % 2 ^ 8 = _
  omega

section

variable {conn : Conn} {buf : List UInt8} {calls : List Call}

/-- A segment is sent again only as often as it can be. -/
theorem tries_of_not_exhausted (h : conn.Counted) (hnot : conn.exhausted = false) :
    conn.nrtx.toNat < conn.tries := by
  obtain ⟨hle, hopening⟩ := h
  have hmax : conn.nrtx.toNat ≠ 8 := by
    intro heq
    have : conn.nrtx = UIP_MAXRTX := UInt8.toNat_inj.mp heq
    simp [Conn.exhausted, this] at hnot
  unfold Conn.tries
  split
  next hsyn =>
    have hfive : conn.nrtx.toNat ≠ 5 := by
      intro heq
      have : conn.nrtx = UIP_MAXSYNRTX := UInt8.toNat_inj.mp heq
      simp [Conn.exhausted, this, hsyn] at hnot
    have hstate : conn.opening := by
      simp only [Conn.is, Bool.or_eq_true, Bool.and_eq_true, decide_eq_true_eq] at hsyn
      exact hsyn.imp And.left And.left
    have := (hopening hstate).2
    omega
  next => omega

/-- What is sent again leaves the connection waiting as it is. -/
theorem retransmit_waiting (c : Config) (conn : Conn) (buf : List UInt8) (calls : List Call)
    (hactive : conn.active = true) (hout : conn.outstanding = true) :
    (retransmit c conn buf calls).conn.waiting = true ∧
      (retransmit c conn buf calls).conn.deadline = conn.deadline ∧
      (retransmit c conn buf calls).conn.nrtx = conn.nrtx ∧
      ((retransmit c conn buf calls).conn.opening → (retransmit c conn buf calls).conn = conn) := by
  have hsame : conn.waiting = true ∧ conn.deadline = conn.deadline ∧ conn.nrtx = conn.nrtx ∧
      (conn.opening → conn = conn) := by
    refine ⟨?_, rfl, rfl, fun _ => rfl⟩
    rw [Conn.waiting, hactive, hout]
    simp
  unfold retransmit
  split
  case h_3 hs =>
    obtain ⟨b, hb⟩ := conn_notify conn { rexmit := true } 0 buf calls
    dsimp only
    rw [hb]
    refine ⟨?_, ?_, rfl, fun h => ?_⟩
    · have hactive' : ({ conn with stopped := b } : Conn).active = true := by
        simp [Conn.active, Conn.is, hs]
      have hout' : ({ conn with stopped := b } : Conn).outstanding = true := hout
      rw [Conn.waiting, hactive', hout']
      simp
    · simp [Conn.deadline, Conn.lingers, Conn.tries, Conn.is, hs]
    · simp [Conn.opening, hs] at h
  all_goals exact hsame

/-- The connection when its segment is sent again. -/
def Conn.again (conn : Conn) : Conn :=
  { conn with
    timer := UIP_RTO <<< (if 4 < conn.nrtx then 4 else conn.nrtx)
    nrtx := conn.nrtx + 1 }

theorem deadline_again (h : conn.Counted) (hnot : conn.exhausted = false) (hzero : conn.timer = 0)
    (hlingers : conn.lingers = false) : conn.again.deadline + 1 = conn.deadline := by
  have htries := tries_of_not_exhausted h hnot
  have hle : conn.tries ≤ 8 := by
    unfold Conn.tries
    split <;> decide
  have htimer : conn.again.timer.toNat = backoff conn.nrtx.toNat := toNat_timer (by omega)
  have hnrtx : conn.again.nrtx.toNat = conn.nrtx.toNat + 1 := toNat_succ (by omega)
  have hagain : conn.again.lingers = false := hlingers
  have hsame : conn.again.tries = conn.tries := rfl
  have hretries : retries conn.nrtx.toNat (conn.tries - conn.nrtx.toNat) =
      backoff conn.nrtx.toNat + 1 +
        retries (conn.nrtx.toNat + 1) (conn.tries - (conn.nrtx.toNat + 1)) := by
    have hleft : conn.tries - conn.nrtx.toNat = conn.tries - (conn.nrtx.toNat + 1) + 1 := by omega
    rw [hleft, retries]
  have hnow : conn.timer.toNat = 0 := congrArg UInt8.toNat hzero
  rw [Conn.deadline, Conn.deadline, hagain, hlingers, if_neg Bool.false_ne_true,
    if_neg Bool.false_ne_true, htimer, hnrtx, hsame, hretries, hnow]
  omega

/-- The timer counts up only as far as a segment can be sent again. -/
theorem Conn.Counted.periodic (h : conn.Counted) (forced : Bool) :
    (periodic c forced conn buf calls).conn.Counted := by
  have hopened : ∀ s b t, s ≠ SYN_SENT → s ≠ SYN_RCVD →
      ({ conn with tcpstate := s, stopped := b, timer := t } : Conn).Counted :=
    fun s b t hsent hrcvd => ⟨h.1, fun hopening => (hopening.elim hsent hrcvd).elim⟩
  unfold Tcp.periodic
  split
  next hlingers =>
    have hstate : conn.tcpstate ≠ SYN_SENT ∧ conn.tcpstate ≠ SYN_RCVD := by
      simp only [Conn.is, Bool.and_eq_true, Bool.or_eq_true, decide_eq_true_eq] at hlingers
      rcases hlingers.2 with hs | hs <;> rw [hs.1] <;> decide
    dsimp only [drop]
    split
    · exact hopened CLOSED false _ (by decide) (by decide)
    · exact hopened conn.tcpstate conn.stopped _ hstate.1 hstate.2
  split
  · split
    · split
      · unfold timedOut
        split
        · obtain ⟨b, hb⟩ := conn_notify { conn.enter CLOSED with timer := conn.timer - 1 }
            { timedout := true } 0 buf calls
          dsimp only
          rw [hb]
          exact hopened CLOSED b _ (by decide) (by decide)
        next hactive hout _ hnot =>
          have hout : conn.outstanding = true := ((Bool.and_eq_true _ _).mp hout).1
          obtain ⟨-, -, hnrtx, hsame⟩ :=
            retransmit_waiting c conn.again buf calls hactive hout
          have htries := tries_of_not_exhausted h (by simpa using hnot)
          have hle : conn.tries ≤ 8 := by
            unfold Conn.tries
            split <;> decide
          have hagain : conn.again.nrtx.toNat = conn.nrtx.toNat + 1 := toNat_succ (by omega)
          refine ⟨?_, fun hopening => ?_⟩
          · exact (congrArg UInt8.toNat hnrtx).trans hagain |>.trans_le (by omega)
          · have hagain' : conn.opening := by
              have hconn := hsame hopening
              change (retransmit c conn.again buf calls).conn.opening at hopening
              rw [hconn] at hopening
              exact hopening
            obtain ⟨hstopped, -⟩ := h.2 hagain'
            have hfive : conn.tries = 5 := by
              unfold Conn.tries Conn.is
              rw [hstopped]
              rcases hagain' with hs | hs <;> simp [hs]
            change (retransmit c conn.again buf calls).conn.stopped = false ∧
              (retransmit c conn.again buf calls).conn.nrtx.toNat ≤ 5
            rw [hsame hopening]
            exact ⟨hstopped, by omega⟩
      · exact ⟨h.1, h.2⟩
    · split
      next hs => exact h.of_keeps (keeps_converse (by simp [Conn.opening, hs]) ..)
      next => exact h
  · exact h

/-- **One tick.**  A connection that waits is closed, or it has one tick less to wait. -/
theorem periodic_waiting (c : Config) (buf : List UInt8) (calls : List Call) (h : conn.Counted)
    (hwaiting : conn.waiting = true) :
    (periodic c false conn buf calls).conn.tcpstate = CLOSED ∨
      ((periodic c false conn buf calls).conn.waiting = true ∧
        (periodic c false conn buf calls).conn.deadline + 1 = conn.deadline) := by
  unfold periodic
  by_cases hlingers : conn.lingers = true
  · have hcond : (!false && (conn.is TIME_WAIT || conn.is FIN_WAIT_2)) = true := hlingers
    rw [if_pos hcond]
    dsimp only [drop]
    split
    · exact .inl rfl
    next htimer =>
      refine .inr ⟨?_, ?_⟩
      · exact (Bool.or_eq_true _ _).mpr (.inl hlingers)
      · have hlingers' : ({ conn with timer := conn.timer + 1 } : Conn).lingers = true := hlingers
        rw [Conn.deadline, Conn.deadline, if_pos hlingers', if_pos hlingers, toNat_lingering htimer]
  · -- an acknowledgement is outstanding
    have hlingers : conn.lingers = false := by simpa using hlingers
    obtain ⟨hactive, hout⟩ : conn.active = true ∧ conn.outstanding = true := by
      simpa [Conn.waiting, hlingers] using hwaiting
    have hcond : ¬ (!false && (conn.is TIME_WAIT || conn.is FIN_WAIT_2)) = true := by
      rw [← Conn.lingers, hlingers]
      decide
    have hdue : (conn.outstanding && !false) = true := by rw [hout]; rfl
    rw [if_neg hcond, if_pos hactive, if_pos hdue]
    split
    next hzero =>
      unfold timedOut
      split
      · -- it has been sent often enough
        obtain ⟨b, hb⟩ := conn_notify { conn.enter CLOSED with timer := conn.timer - 1 }
          { timedout := true } 0 buf calls
        refine .inl ?_
        dsimp only
        rw [hb]
        rfl
      next hnot =>
        obtain ⟨hwaits, hdeadline, -, -⟩ :=
          retransmit_waiting c conn.again buf calls hactive hout
        have hagain := deadline_again h (by simpa using hnot) hzero hlingers
        exact .inr ⟨hwaits, (congrArg (· + 1) hdeadline).trans hagain⟩
    next hne =>
      refine .inr ⟨hwaiting, ?_⟩
      have hlingers' : ({ conn with timer := conn.timer - 1 } : Conn).lingers = false := hlingers
      rw [Conn.deadline, Conn.deadline, drop]
      dsimp only
      rw [hlingers', hlingers, if_neg Bool.false_ne_true, if_neg Bool.false_ne_true]
      have hpred := toNat_pred hne
      change (conn.timer - 1).toNat + 1 + retries conn.nrtx.toNat (conn.tries - conn.nrtx.toNat) + 1 = _
      omega

end

/-! ## Runs -/

theorem Counted.update {conns : Fin n → Conn} (h : ∀ j, (conns j).Counted) {i : Fin n} {conn : Conn}
    (hi : conn.Counted) (j : Fin n) : (Function.update conns i conn j).Counted := by
  by_cases hj : j = i
  · subst hj
    rwa [Function.update_self]
  · rw [Function.update_of_ne hj]
    exact h j

/-- A connection that is opened has sent its segment for the first time. -/
theorem Counted.of_zero {conn : Conn} (hnrtx : conn.nrtx = 0) (hstopped : conn.stopped = false) :
    conn.Counted := by
  refine ⟨?_, fun _ => ⟨hstopped, ?_⟩⟩ <;> rw [hnrtx] <;> decide

theorem Counted.uipInput {w : World n} (h : ∀ j, (w.conns j).Counted) {seg : Segment}
    {calls : List Call} {o : Outcome n} (ho : uipInput c w seg calls = some o) (j : Fin n) :
    (o.world.conns j).Counted := by
  unfold Tcp.uipInput at ho
  dsimp only at ho
  split at ho
  · rw [← Option.some.inj ho]
    exact h j
  split at ho
  next i _ =>
    obtain ⟨r, hr, rfl⟩ := Option.map_eq_some_iff.mp ho
    exact Counted.update h ((h i).of_keeps (keeps_found hr)) j
  next =>
    split at ho
    · split at ho
      · rw [← Option.some.inj ho]
        exact h j
      next i _ =>
        obtain ⟨conn, hconn, rfl⟩ := Option.map_eq_some_iff.mp ho
        have haccept : ((w.conns i).accept w.iss seg).Counted := Counted.of_zero rfl rfl
        exact Counted.update h (haccept.of_keeps (keeps_parseOptions hconn)) j
    · rw [← Option.some.inj ho]
      exact h j

theorem Counted.step {w w' : World n} (h : ∀ j, (w.conns j).Counted) {a : Action n}
    (hstep : step c w a = some w') (j : Fin n) : (w'.conns j).Counted := by
  unfold Tcp.step outcome at hstep
  obtain ⟨o, ho, rfl⟩ := Option.map_eq_some_iff.mp hstep
  cases a with
  | input seg calls => exact Counted.uipInput h ho j
  | periodic i forced calls =>
      obtain rfl := Option.some.inj ho
      exact Counted.update h ((h i).periodic forced) j
  | connect ripaddr rport =>
      dsimp only [uipConnect] at ho
      rw [Option.map_map] at ho
      obtain ⟨port, -, rfl⟩ := Option.map_eq_some_iff.mp ho
      dsimp only [Function.comp_apply, World.ignore]
      split
      · exact h j
      · exact Counted.update h (Counted.of_zero rfl rfl) j
  | connectSocket i ripaddr rport =>
      dsimp only [uipConnectSocket] at ho
      split at ho
      · rw [Option.map_map] at ho
        obtain ⟨port, -, rfl⟩ := Option.map_eq_some_iff.mp ho
        exact Counted.update h (Counted.of_zero rfl rfl) j
      · obtain rfl := Option.some.inj ho
        exact h j
  | socket =>
      obtain rfl := Option.some.inj ho
      dsimp only [World.ignore, eluaNetSocket]
      split
      · exact h j
      next i _ =>
        exact Counted.update h ((h i).of_keeps (keeps_enter _ (by decide) (by decide))) j
  | listen port =>
      obtain rfl := Option.some.inj ho
      dsimp only [World.ignore, uipListen]
      split <;> exact h j
  | unlisten port =>
      obtain rfl := Option.some.inj ho
      dsimp only [World.ignore, uipUnlisten]
      split <;> exact h j

/-- The peer of the connection is silent: a step is a tick of its timer, or does not change it; and
it is not closed in the step. -/
def Silent (c : Config) (i : Fin n) (w : World n) (a : Action n) : Prop :=
  ((∃ calls, a = .periodic i false calls) ∨
    ∀ w', step c w a = some w' → w'.conns i = w.conns i) ∧
  ∀ w', step c w a = some w' → (w'.conns i).tcpstate ≠ CLOSED

/-- The timer of the connection has fired. -/
def Action.ticks (i : Fin n) : Action n → Bool
  | .periodic j forced _ => j = i && !forced
  | _ => false

/-- **A silent peer.**  While the connection is not closed, each tick takes one of those that it
waits. -/
theorem ticks_waiting {i : Fin n} {as : List (Action n)} {w w' : World n}
    (h : ∀ j, (w.conns j).Counted) (hwaiting : (w.conns i).waiting = true)
    (hsilent : Transition.Conforming (step c) (Silent c i) w as)
    (hrun : Transition.run (step c) w as = some w') :
    as.countP (Action.ticks i) + (w'.conns i).deadline = (w.conns i).deadline := by
  induction as generalizing w with
  | nil =>
      obtain rfl := Option.some.inj hrun
      exact Nat.zero_add _
  | cons a as ih =>
      obtain ⟨w₁, h₁, hrun₁⟩ := Option.bind_eq_some_iff.mp hrun
      obtain ⟨⟨htick, hopen⟩, hrest⟩ := hsilent
      have hcounted := Counted.step h h₁
      rw [List.countP_cons]
      by_cases ht : a.ticks i = true
      · obtain ⟨calls, rfl⟩ : ∃ calls, a = .periodic i false calls := by
          cases a with
          | periodic j forced calls =>
              simp only [Action.ticks, Bool.and_eq_true, decide_eq_true_eq,
                Bool.not_eq_true'] at ht
              exact ⟨calls, by rw [ht.1, ht.2]⟩
          | _ => cases ht
        have hconn : w₁.conns i = (periodic c false (w.conns i) w.buf calls).conn := by
          rw [← Option.some.inj h₁]
          exact Function.update_self ..
        rcases periodic_waiting c w.buf calls (h i) hwaiting with hclosed | ⟨hwaits, hdeadline⟩
        · exact absurd (hconn ▸ hclosed) (hopen w₁ h₁)
        · rw [← hconn] at hwaits hdeadline
          have hleft := ih hcounted hwaits (hrest w₁ h₁) hrun₁
          rw [if_pos ht]
          omega
      · have hsame : w₁.conns i = w.conns i := by
          rcases htick with ⟨calls, rfl⟩ | hsame
          · simp [Action.ticks] at ht
          · exact hsame w₁ h₁
        have hleft := ih hcounted (hsame ▸ hwaiting) (hrest w₁ h₁) hrun₁
        rw [if_neg ht, ← hsame]
        exact hleft

/-- **Nothing waits for ever.**  In every state that the system comes to, a connection that waits for
its peer is closed when its timer has fired as often as its fields say, which is at most 501 times,
if the peer is silent, whatever the application and the other connections do. -/
theorem closed_in_time (ports : Nat) (buf : List UInt8) {as bs : List (Action n)} {w w' : World n}
    (hreach : Transition.run (step c) (uipInit n ports buf) as = some w) {i : Fin n}
    (hwaiting : (w.conns i).waiting = true)
    (hsilent : Transition.Conforming (step c) (Silent c i) w bs)
    (hrun : Transition.run (step c) w bs = some w') :
    bs.countP (Action.ticks i) < (w.conns i).deadline ∧ (w.conns i).deadline ≤ 501 := by
  have hcounted : ∀ j, (w.conns j).Counted :=
    Transition.invariant_of_steps
      (fun w a w' (h : ∀ j, (w.conns j).Counted) hstep => Counted.step h hstep)
      (fun _ => Counted.of_zero rfl rfl) hreach
  have hleft := ticks_waiting hcounted hwaiting hsilent hrun
  have hpos : 0 < (w'.conns i).deadline := by
    unfold Conn.deadline
    split
    · exact Nat.succ_pos _
    · omega
  exact ⟨by omega, deadline_le (hcounted i)⟩

theorem closed_in_time_sample :
    ∃ w : World 4, Transition.run (step sampleConfig) (uipInit 4 4 []) sampleOpening = some w ∧
      1 < (w.conns 0).deadline ∧ (w.conns 0).deadline ≤ 501 := by
  have hreach : ∃ w : World 4,
      Transition.run (step sampleConfig) (uipInit 4 4 []) sampleOpening = some w ∧
      (w.conns 0).waiting = true ∧
      Transition.Conforming (step sampleConfig) (Silent sampleConfig 0) w [.periodic 0 false []] ∧
      ∃ w', Transition.run (step sampleConfig) w [.periodic 0 false []] = some w' := by
    refine ⟨_, rfl, rfl, ⟨⟨.inl ⟨[], rfl⟩, fun w' hw' => ?_⟩, fun _ _ => trivial⟩, _, rfl⟩
    obtain rfl := Option.some.inj hw'
    decide
  obtain ⟨w, hw, hwaiting, hsilent, w', hrun⟩ := hreach
  exact ⟨w, hw, closed_in_time 4 [] hw hwaiting hsilent hrun⟩

end Tcp
