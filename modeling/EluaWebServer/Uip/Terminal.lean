import EluaWebServer.Uip.Appcall
import EluaWebServer.Lib.Transition

/-!
# The end of a connection

uIP reports that a connection is closed, aborted or timed out.  The application gives the
report to the service call that waits on the connection, and forgets the telnet socket:
in which states it does is said for one event, and what follows for runs of service calls
and events on all connections.
-/

namespace Uip

open AppState

/-! ## One event -/

/-- uIP reports the end of the connection. -/
def Event.reportsEnd (e : Event) : Bool := !e.connected && e.terminal

/-- The error code says what has been reported. -/
def Corresponds (e : Event) (res : UInt8) : Prop :=
  (e.closed = true ∧ res = ELUA_NET_ERR_CLOSED) ∨
    (e.aborted = true ∧ res = ELUA_NET_ERR_ABORTED) ∨
    (e.timedout = true ∧ res = ELUA_NET_ERR_TIMEDOUT)

/-- A call that was pending gets the error code, and the telnet socket is no more. -/
structure Released (c : Config) (w w' : World) (sockno : Nat) (e : Event) : Prop where
  pending : (w.socket sockno).state ≠ ELUA_UIP_STATE_IDLE →
    (w'.socket sockno).state = ELUA_UIP_STATE_IDLE ∧ Corresponds e (w'.socket sockno).res
  telnet : w.isTelnet c sockno = true → w'.telnetSocket = -1

/-- The application does not return before it looks for the end of the connection, or has
nothing to do then. -/
def Heard (c : Config) (w : World) (sockno : Nat) : Prop :=
  (w.socket sockno).state ≠ ELUA_UIP_STATE_RECV ∧
    ((w.socket sockno).state = ELUA_UIP_STATE_IDLE → w.isTelnet c sockno = false)

instance (c : Config) (w : World) (sockno : Nat) : Decidable (Heard c w sockno) :=
  inferInstanceAs (Decidable (_ ∧ _))

variable {c : Config} {w w' : World} {sockno : Nat} {e : Event}

theorem corresponds_terminalError (hterminal : e.terminal = true) :
    Corresponds e (terminalError e) := by
  unfold Corresponds terminalError
  cases haborted : e.aborted with
  | true => simp
  | false =>
      cases htimedout : e.timedout with
      | true => simp
      | false =>
          have hclosed : e.closed = true := by
            simpa [Event.terminal, haborted, htimedout] using hterminal
          simp [hclosed]

theorem telnetSocket_of_isTelnet (h : w.isTelnet c sockno = true) :
    c.conTcp = true ∧ w.telnetSocket = sockno := by
  simpa [World.isTelnet] using h

theorem isTelnet_of_neg (h : w.telnetSocket = -1) : w.isTelnet c sockno = false := by
  simp [World.isTelnet, h]

/-- The application when uIP reports the end of the connection. -/
theorem appcall_reportsEnd (hconfigured : w.configured = true) (he : e.reportsEnd = true) :
    ∃ w', eluaUipAppcall c w sockno e = some (w', if
        (w.socket sockno).state = ELUA_UIP_STATE_RECV then [.restart] else []) ∧
      (Released c w w' sockno e ↔ Heard c w sockno) ∧
      ((w'.socket sockno).state = ELUA_UIP_STATE_IDLE ∧ w'.isTelnet c sockno = false ↔
        Heard c w sockno) := by
  obtain ⟨hconnected, hterminal⟩ : e.connected = false ∧ e.terminal = true := by
    simpa [Event.reportsEnd] using he
  by_cases hidle : (w.socket sockno).state = ELUA_UIP_STATE_IDLE
  · refine ⟨w, ?_, ?_, ?_⟩
    · rw [appcall_idle hconnected hidle, hidle]
      rfl
    · constructor
      · intro h
        refine ⟨by rw [hidle]; exact nofun, fun _ => ?_⟩
        cases htelnet : w.isTelnet c sockno with
        | false => rfl
        | true =>
            have hsocket := (telnetSocket_of_isTelnet htelnet).2
            have hnone := h.telnet htelnet
            omega
      · intro h
        exact ⟨fun hne => absurd hidle hne, fun htelnet => by rw [h.2 hidle] at htelnet; cases htelnet⟩
    · simp [Heard, hidle]
  · by_cases hrecv : (w.socket sockno).state = ELUA_UIP_STATE_RECV
    · rw [appcall_recv hconfigured hconnected hrecv, if_pos hrecv]
      refine ⟨_, rfl, ?_, ?_⟩
      · apply iff_of_false
        · intro h
          have hstate := (h.pending hidle).1
          rw [socket_set] at hstate
          cases hstate
        · exact fun h => h.1 hrecv
      · apply iff_of_false
        · rintro ⟨hstate, -⟩
          rw [socket_set] at hstate
          cases hstate
        · exact fun h => h.1 hrecv
    · have hheard : Heard c w sockno := ⟨hrecv, fun h => absurd h hidle⟩
      rw [appcall_terminal hconfigured hconnected hidle hrecv hterminal, if_neg hrecv]
      refine ⟨_, rfl, ?_, ?_⟩
      · refine iff_of_true ⟨fun _ => ?_, fun htelnet => ?_⟩ hheard
        · rw [socket_set]
          exact ⟨rfl, corresponds_terminalError hterminal⟩
        · exact if_pos htelnet
      · refine iff_of_true ⟨?_, ?_⟩ hheard
        · rw [socket_set]
        · cases htelnet : w.isTelnet c sockno with
          | true => exact isTelnet_of_neg (by simp [World.set])
          | false => exact htelnet

/-- What an event of a connection leaves as it is. -/
structure SameElsewhere (w w' : World) (sockno : Nat) : Prop where
  configured : w'.configured = w.configured
  socket : ∀ k, k ≠ sockno → w'.socket k = w.socket k
  telnet : w'.telnetSocket = w.telnetSocket ∨ w'.telnetSocket = sockno ∨ w'.telnetSocket = -1

theorem SameElsewhere.refl (w : World) (sockno : Nat) : SameElsewhere w w sockno :=
  ⟨rfl, fun _ _ => rfl, .inl rfl⟩

theorem SameElsewhere.set (h : SameElsewhere w w' sockno) (s : EluaUipState) :
    SameElsewhere w (w'.set sockno s) sockno where
  configured := h.configured
  socket k hk := (Function.update_of_ne hk _ _).trans (h.socket k hk)
  telnet := h.telnet

theorem SameElsewhere.isTelnet {k : Nat} (h : SameElsewhere w w' sockno) (hk : k ≠ sockno)
    (htelnet : w'.isTelnet c k = true) : w.isTelnet c k = true := by
  obtain ⟨hcon, hsocket⟩ := telnetSocket_of_isTelnet htelnet
  have heq : w.telnetSocket = k := by
    rcases h.telnet with h | h | h <;> omega
  simp [World.isTelnet, hcon, heq]

theorem of_ite_eq {α : Type} {p q : Prop} [Decidable p] {a b x : α} (ha : a = x → q)
    (hb : b = x → q) : (if p then a else b) = x → q := by
  split
  next => exact ha
  next => exact hb

theorem appcall_sameElsewhere {calls : List UipCall}
    (h : eluaUipAppcall c w sockno e = some (w', calls)) : SameElsewhere w w' sockno := by
  have hrefl := SameElsewhere.refl w sockno
  have hmap : ∀ o : Option (EluaUipState × List UipCall),
      (o.map fun r => (w.set sockno r.1, r.2)) = some (w', calls) →
      SameElsewhere w w' sockno := by
    intro o ho
    obtain ⟨r, -, hr⟩ := Option.map_eq_some_iff.mp ho
    obtain rfl := (Prod.mk.inj hr).1
    exact hrefl.set r.1
  have hsome : ∀ (w₁ : World) (l : List UipCall), SameElsewhere w w₁ sockno →
      some (w₁, l) = some (w', calls) → SameElsewhere w w' sockno := by
    intro w₁ l hsame heq
    obtain rfl := (Prod.mk.inj (Option.some.inj heq)).1
    exact hsame
  have htelnet : ∀ t, t = w.telnetSocket ∨ t = sockno ∨ t = -1 →
      SameElsewhere w { w with telnetSocket := t } sockno :=
    fun t ht => ⟨rfl, fun _ _ => rfl, ht⟩
  revert h
  unfold eluaUipAppcall
  apply of_ite_eq (hsome _ _ hrefl)
  apply of_ite_eq
  · -- A new connection.
    apply of_ite_eq
    · apply of_ite_eq (hsome _ _ hrefl) (hsome _ _ (htelnet _ (.inr (.inl rfl))))
    · apply of_ite_eq
      · apply hsome
        exact ⟨rfl, fun _ _ => rfl, .inl rfl⟩
      · apply of_ite_eq (hsome _ _ (hrefl.set _)) (hsome _ _ hrefl)
  apply of_ite_eq (hsome _ _ hrefl)
  apply of_ite_eq (hsome _ _ (hrefl.set _))
  apply of_ite_eq
  · -- The end of the connection.
    apply hsome
    apply SameElsewhere.set
    apply htelnet
    split
    next => exact .inr (.inr rfl)
    next => exact .inl rfl
  apply of_ite_eq (hmap _)
  apply of_ite_eq (hsome _ _ (hrefl.set _))
  apply of_ite_eq
  · apply of_ite_eq (hmap _) (hsome _ _ hrefl)
  · exact hsome _ _ hrefl

/-! ## Runs -/

/-- An entry of the table of connections. -/
inductive Conn where
  | closed
  /-- By `elua_net_socket`. -/
  | reserved
  | alive
  /-- The application has closed it, the peer has not. -/
  | closing
  /-- uIP has reported the end, and still waits for acknowledgements. -/
  | ended
  deriving DecidableEq

/-- `uip_conn_active`. -/
def Conn.uipConnActive : Conn → Bool
  | .closed | .reserved => false
  | .alive | .closing | .ended => true

/-- The end of the connection has been reported, or there is none. -/
def Conn.dead : Conn → Bool
  | .closed | .ended => true
  | .reserved | .alive | .closing => false

/-- A call of `elua_net_send`, `elua_net_recv`, `elua_net_recvbuf` or `elua_net_close`. -/
inductive Request where
  | send (buf : List UInt8)
  | recv (ptr : Ptr) (maxsize readto : Int) (withBuffer : Bool)
  | close

/-- There is nothing to send or to receive. -/
def Request.empty : Request → Bool
  | .send buf => buf.isEmpty
  | .recv _ maxsize _ _ => decide (maxsize = 0)
  | .close => false

/-- What the call fills in. -/
def Request.prep : Request → EluaUipState
  | .send buf => prepSend buf
  | .recv ptr maxsize readto withBuffer => prepRecv ptr maxsize readto withBuffer
  | .close => prepClose

/-- The application, the connections and the calls that have passed their checks and not
filled in the state yet. -/
structure System where
  w : World
  conn : Nat → Conn
  checked : Nat → Option Request

inductive Action where
  /-- There is an address now. -/
  | configure
  /-- `elua_accept` begins to wait. -/
  | accept
  /-- It waits no longer. -/
  | giveUp
  /-- `elua_net_socket` -/
  | reserve (sockno : Nat)
  /-- `elua_net_connect` -/
  | connect (sockno : Nat)
  /-- A peer connects. -/
  | syn (sockno : Nat)
  /-- uIP calls the application, and stays in touch with the peer or not when the
  connection is closed. -/
  | appcall (sockno : Nat) (e : Event) (stays : Bool)
  /-- uIP forgets a connection without a report, some time after it has been closed. -/
  | forget (sockno : Nat)
  /-- A service is called, and checks the connection. -/
  | call (sockno : Nat) (r : Request)
  /-- It fills in the state. -/
  | prepare (sockno : Nat)
  /-- The time of a receive is over. -/
  | expire (sockno : Nat)

/-- uIP raises any event while the connection is alive, and then reports its end. -/
def System.raises (g : System) (sockno : Nat) (e : Event) : Bool :=
  match g.conn sockno with
  | .closed | .reserved => false
  | .alive => true
  | .closing | .ended => e.reportsEnd

/-- The connection after an event. -/
def Conn.after (e : Event) (stays : Bool) (calls : List UipCall) (conn : Conn) : Conn :=
  if e.reportsEnd then if e.aborted || e.timedout || !stays then .closed else .ended
  else if .close ∈ calls then .closing
  else conn

def System.setConn (g : System) (sockno : Nat) (conn : Conn) : System :=
  { g with conn := Function.update g.conn sockno conn }

/-- No call is in progress on the connection. -/
def System.free (g : System) (sockno : Nat) : Bool :=
  decide ((g.w.socket sockno).state = ELUA_UIP_STATE_IDLE) && (g.checked sockno).isNone

/-- What cannot happen is skipped.  There is no result when the application accesses memory
that is not there. -/
def System.step (c : Config) (g : System) : Action → Option System
  | .configure => some { g with w := { g.w with configured := true } }
  | .accept => some { g with w := { g.w with acceptSock := -1, acceptRequest := true } }
  | .giveUp => some { g with w := { g.w with acceptRequest := false } }
  | .reserve sockno =>
      some (if g.conn sockno = .closed then g.setConn sockno .reserved else g)
  | .connect sockno =>
      some (if g.w.configured ∧ g.conn sockno = .reserved ∧ g.free sockno then
          { g with
            w := g.w.set sockno prepConnect
            conn := Function.update g.conn sockno .alive }
        else g)
  | .syn sockno => some (if (g.conn sockno).dead then g.setConn sockno .alive else g)
  | .appcall sockno e stays =>
      if g.raises sockno e then
        (eluaUipAppcall c g.w sockno e).map fun (w, calls) =>
          { g with
            w := w
            conn := Function.update g.conn sockno ((g.conn sockno).after e stays calls) }
      else some g
  | .forget sockno =>
      some (if g.conn sockno = .closing ∨ g.conn sockno = .ended then g.setConn sockno .closed
        else g)
  | .call sockno r =>
      some (if g.w.configured ∧ (g.conn sockno).uipConnActive ∧ ¬r.empty ∧ g.free sockno then
          { g with checked := Function.update g.checked sockno (some r) }
        else g)
  | .prepare sockno =>
      some (match g.checked sockno with
        | some r =>
            { g with
              w := g.w.set sockno r.prep
              checked := Function.update g.checked sockno none }
        | none => g)
  | .expire sockno =>
      let s := g.w.socket sockno
      some (if s.state = ELUA_UIP_STATE_RECV ∨ s.state = ELUA_UIP_STATE_RECV_2 then
          let s := { s with res := ELUA_NET_ERR_TIMEDOUT, state := ELUA_UIP_STATE_IDLE }
          { g with w := g.w.set sockno s }
        else g)

/-- When the system is started. -/
def System.start : System where
  w := ⟨false, -1, false, 0, (0, 0), fun _ => ⟨ELUA_UIP_STATE_IDLE, 0, .null, 0, 0⟩⟩
  conn _ := .closed
  checked _ := none

/-- No call waits on the connection, and it is not the telnet socket. -/
def AtRest (c : Config) (w : World) (sockno : Nat) : Prop :=
  (w.socket sockno).state = ELUA_UIP_STATE_IDLE ∧ w.isTelnet c sockno = false

instance (c : Config) (w : World) (sockno : Nat) : Decidable (AtRest c w sockno) :=
  inferInstanceAs (Decidable (_ ∧ _))

/-- No call waits on a dead connection, and no dead connection is the telnet socket. -/
def NoneWaits (c : Config) (g : System) : Prop :=
  ∀ sockno, (g.conn sockno).dead = true → AtRest c g.w sockno

/-- The end of a connection is heard when it is reported, nothing waits for a report that
does not come, and no call begins to wait after it. -/
def Noticed (c : Config) (g : System) : Action → Prop
  | .appcall sockno e _ =>
      g.raises sockno e = true → e.reportsEnd = true → Heard c g.w sockno
  | .forget sockno => g.conn sockno = .closing → AtRest c g.w sockno
  | .prepare sockno => g.checked sockno ≠ none → (g.conn sockno).dead = false
  | _ => True

/-- Nothing happens without an address. -/
def Quiet (g : System) : Prop :=
  g.w.configured = false → g.w.telnetSocket = -1 ∧ ∀ sockno, g.free sockno = true

/-- What holds in every state of a run. -/
structure SystemInv (c : Config) (g : System) : Prop where
  noneWaits : NoneWaits c g
  quiet : Quiet g

variable {g g' : System}

/-- What an action on one connection does to the property. -/
theorem noneWaits_iff (h : NoneWaits c g)
    (hconn : ∀ k, k ≠ sockno → g'.conn k = g.conn k) (hw : SameElsewhere g.w g'.w sockno) :
    NoneWaits c g' ↔ ((g'.conn sockno).dead = true → AtRest c g'.w sockno) := by
  constructor
  · exact fun h' => h' sockno
  · intro hrest k hdead
    by_cases hk : k = sockno
    · subst hk
      exact hrest hdead
    · rw [hconn k hk] at hdead
      obtain ⟨hidle, htelnet⟩ := h k hdead
      refine ⟨(congrArg EluaUipState.state (hw.socket k hk)).trans hidle, ?_⟩
      cases htelnet' : g'.w.isTelnet c k with
      | false => rfl
      | true => exact (htelnet.symm.trans (hw.isTelnet hk htelnet')).symm

theorem conn_update_of_ne (g : System) (conn : Conn) (k : Nat) (hk : k ≠ sockno) :
    Function.update g.conn sockno conn k = g.conn k :=
  Function.update_of_ne hk _ _

/-- An action on one connection. -/
theorem spec_of_iff (sockno : Nat) {ok : Prop} (hinv : SystemInv c g)
    (hconn : ∀ k, k ≠ sockno → g'.conn k = g.conn k) (hw : SameElsewhere g.w g'.w sockno)
    (hquiet : Quiet g') (hok : ((g'.conn sockno).dead = true → AtRest c g'.w sockno) ↔ ok) :
    (NoneWaits c g' → SystemInv c g') ∧ (NoneWaits c g' ↔ ok) :=
  ⟨fun h => ⟨h, hquiet⟩, (noneWaits_iff hinv.noneWaits hconn hw).trans hok⟩

/-- Nothing has happened. -/
theorem spec_self {ok : Prop} (hinv : SystemInv c g) (hok : ok) :
    (NoneWaits c g → SystemInv c g) ∧ (NoneWaits c g ↔ ok) :=
  ⟨fun _ => hinv, iff_of_true hinv.noneWaits hok⟩

theorem spec_setConn (hinv : SystemInv c g) {conn : Conn} {ok : Prop}
    (hok : (conn.dead = true → AtRest c g.w sockno) ↔ ok) :
    (NoneWaits c (g.setConn sockno conn) → SystemInv c (g.setConn sockno conn)) ∧
      (NoneWaits c (g.setConn sockno conn) ↔ ok) := by
  apply spec_of_iff sockno hinv
  · exact conn_update_of_ne g conn
  · exact .refl _ _
  · exact hinv.quiet
  · dsimp only [System.setConn]
    rw [Function.update_self]
    exact hok

theorem SystemInv.atRest_of_unconfigured (hinv : SystemInv c g) (hc : g.w.configured = false)
    (sockno : Nat) : AtRest c g.w sockno := by
  obtain ⟨htelnet, hfree⟩ := hinv.quiet hc
  have hsockno := hfree sockno
  rw [System.free, Bool.and_eq_true, decide_eq_true_eq] at hsockno
  exact ⟨hsockno.1, isTelnet_of_neg htelnet⟩

theorem AtRest.heard (h : AtRest c w sockno) : Heard c w sockno :=
  ⟨by rw [h.1]; exact nofun, fun _ => h.2⟩

theorem appcall_unconfigured (hc : w.configured = false) :
    eluaUipAppcall c w sockno e = some (w, []) := by
  unfold eluaUipAppcall
  rw [hc]
  rfl

theorem dead_after_of_reportsEnd {conn : Conn} (he : e.reportsEnd = true) (stays : Bool)
    (calls : List UipCall) : (conn.after e stays calls).dead = true := by
  rw [Conn.after, if_pos he]
  split <;> rfl

theorem dead_after_alive (he : ¬e.reportsEnd = true) (stays : Bool) (calls : List UipCall) :
    (Conn.alive.after e stays calls).dead = false := by
  rw [Conn.after, if_neg he]
  split <;> rfl

/-- A connection on which uIP raises an event other than its end. -/
theorem alive_of_raises (hraises : g.raises sockno e = true) (he : ¬e.reportsEnd = true) :
    g.conn sockno = .alive := by
  unfold System.raises at hraises
  cases hconn : g.conn sockno <;> simp [hconn, he] at hraises ⊢

theorem spec_appcall (hinv : SystemInv c g) (sockno : Nat) (e : Event) (stays : Bool) :
    (g.step c (.appcall sockno e stays) = none ∧ Noticed c g (.appcall sockno e stays)) ∨
    ∃ g', g.step c (.appcall sockno e stays) = some g' ∧ (NoneWaits c g' → SystemInv c g') ∧
      (NoneWaits c g' ↔ Noticed c g (.appcall sockno e stays)) := by
  by_cases hraises : g.raises sockno e = true
  · have hnoticed : Noticed c g (.appcall sockno e stays) ↔
        (e.reportsEnd = true → Heard c g.w sockno) := by
      exact ⟨fun h => h hraises, fun h _ => h⟩
    have hstep : g.step c (.appcall sockno e stays) =
        (eluaUipAppcall c g.w sockno e).map fun r => { g with
          w := r.1
          conn := Function.update g.conn sockno ((g.conn sockno).after e stays r.2) } :=
      if_pos hraises
    rw [hstep, hnoticed]
    cases hc : g.w.configured with
    | false =>
        have hrest := hinv.atRest_of_unconfigured hc sockno
        rw [appcall_unconfigured hc]
        refine .inr ⟨_, rfl, ?_⟩
        apply spec_of_iff sockno hinv
        · exact conn_update_of_ne g _
        · exact .refl _ _
        · exact hinv.quiet
        · exact iff_of_true (fun _ => hrest) fun _ => hrest.heard
    | true =>
        by_cases he : e.reportsEnd = true
        · obtain ⟨w', hcall, -, hheard⟩ := @appcall_reportsEnd c _ sockno _ hc he
          have hsame := appcall_sameElsewhere hcall
          rw [hcall]
          refine .inr ⟨_, rfl, ?_⟩
          apply spec_of_iff sockno hinv
          · exact conn_update_of_ne g _
          · exact hsame
          · intro hc'
            rw [hsame.configured, hc] at hc'
            cases hc'
          · dsimp only
            rw [Function.update_self]
            have hdead := @dead_after_of_reportsEnd e (g.conn sockno) he stays
            rw [hdead]
            exact ⟨fun h _ => hheard.mp (h rfl), fun h _ => hheard.mpr (h he)⟩
        · cases hcall : eluaUipAppcall c g.w sockno e with
          | none => exact .inl ⟨rfl, fun h => absurd h he⟩
          | some r =>
              have hsame := @appcall_sameElsewhere c g.w r.1 sockno e r.2 hcall
              refine .inr ⟨_, rfl, ?_⟩
              apply spec_of_iff sockno hinv
              · exact conn_update_of_ne g _
              · exact hsame
              · intro hc'
                rw [hsame.configured, hc] at hc'
                cases hc'
              · dsimp only
                rw [Function.update_self, alive_of_raises hraises he, dead_after_alive he]
                exact iff_of_true nofun fun h => absurd h he
  · refine .inr ⟨g, ?_, spec_self hinv fun h => absurd h hraises⟩
    exact if_neg hraises

theorem configured_of_not_free (hinv : SystemInv c g) (hfree : ¬g.free sockno = true) :
    g.w.configured = true := by
  cases hc : g.w.configured with
  | true => rfl
  | false => exact absurd ((hinv.quiet hc).2 sockno) hfree

theorem quiet_of_configured (hc : g.w.configured = true) : Quiet g := by
  intro hc'
  rw [hc] at hc'
  cases hc'

theorem spec_connect (hinv : SystemInv c g) (sockno : Nat) :
    ∃ g', g.step c (.connect sockno) = some g' ∧ (NoneWaits c g' → SystemInv c g') ∧
      (NoneWaits c g' ↔ True) := by
  by_cases h : g.w.configured ∧ g.conn sockno = .reserved ∧ g.free sockno
  · refine ⟨_, congrArg some (if_pos h), ?_⟩
    apply spec_of_iff sockno hinv
    · exact conn_update_of_ne g _
    · exact (SameElsewhere.refl _ _).set _
    · exact quiet_of_configured h.1
    · dsimp only
      rw [Function.update_self]
      exact iff_of_true nofun trivial
  · exact ⟨g, congrArg some (if_neg h), spec_self hinv trivial⟩

theorem spec_forget (hinv : SystemInv c g) (sockno : Nat) :
    ∃ g', g.step c (.forget sockno) = some g' ∧ (NoneWaits c g' → SystemInv c g') ∧
      (NoneWaits c g' ↔ Noticed c g (.forget sockno)) := by
  by_cases h : g.conn sockno = .closing ∨ g.conn sockno = .ended
  · refine ⟨_, congrArg some (if_pos h), spec_setConn hinv ?_⟩
    rcases h with h | h
    · exact ⟨fun hrest _ => hrest rfl, fun hrest _ => hrest h⟩
    · have hrest : AtRest c g.w sockno := hinv.noneWaits sockno (by rw [h]; rfl)
      exact iff_of_true (fun _ => hrest) fun _ => hrest
  · refine ⟨g, congrArg some (if_neg h), spec_self hinv fun hclosing => ?_⟩
    exact absurd (.inl hclosing) h

theorem Request.state_prep_ne (r : Request) : r.prep.state ≠ ELUA_UIP_STATE_IDLE := by
  cases r <;> exact nofun

theorem spec_prepare (hinv : SystemInv c g) (sockno : Nat) :
    ∃ g', g.step c (.prepare sockno) = some g' ∧ (NoneWaits c g' → SystemInv c g') ∧
      (NoneWaits c g' ↔ Noticed c g (.prepare sockno)) := by
  have hnoticed : Noticed c g (.prepare sockno) ↔
      (g.checked sockno ≠ none → (g.conn sockno).dead = false) := Iff.rfl
  rw [hnoticed]
  cases hchecked : g.checked sockno with
  | none =>
      refine ⟨g, ?_, spec_self hinv fun hne => absurd rfl hne⟩
      simp only [System.step, hchecked]
  | some r =>
      have hfree : ¬g.free sockno = true := by simp [System.free, hchecked]
      have hconfigured := configured_of_not_free hinv hfree
      refine ⟨{ g with
        w := g.w.set sockno r.prep, checked := Function.update g.checked sockno none }, ?_, ?_⟩
      · simp only [System.step, hchecked]
      · apply spec_of_iff sockno hinv
        · exact fun _ _ => rfl
        · exact (SameElsewhere.refl _ _).set _
        · exact quiet_of_configured hconfigured
        · -- The call waits from now on.
          have hwaits : ¬AtRest c (g.w.set sockno r.prep) sockno := by
            rintro ⟨hstate, -⟩
            rw [socket_set] at hstate
            exact r.state_prep_ne hstate
          dsimp only
          cases (g.conn sockno).dead with
          | true => exact iff_of_false (fun h => hwaits (h rfl)) fun h => nomatch h nofun
          | false => exact iff_of_true nofun fun _ => rfl

theorem spec_expire (hinv : SystemInv c g) (sockno : Nat) :
    ∃ g', g.step c (.expire sockno) = some g' ∧ (NoneWaits c g' → SystemInv c g') ∧
      (NoneWaits c g' ↔ True) := by
  by_cases h : (g.w.socket sockno).state = ELUA_UIP_STATE_RECV ∨
      (g.w.socket sockno).state = ELUA_UIP_STATE_RECV_2
  · have hfree : ¬g.free sockno = true := by
      rcases h with h | h <;> simp [System.free, h]
    have hconfigured := configured_of_not_free hinv hfree
    refine ⟨_, congrArg some (if_pos h), ?_⟩
    apply spec_of_iff sockno hinv
    · exact fun _ _ => rfl
    · exact (SameElsewhere.refl _ _).set _
    · exact quiet_of_configured hconfigured
    · refine iff_of_true (fun hdead => ⟨?_, (hinv.noneWaits sockno hdead).2⟩) trivial
      rw [socket_set]
  · exact ⟨g, congrArg some (if_neg h), spec_self hinv trivial⟩

/-- **One action.** -/
theorem step_spec (hinv : SystemInv c g) (a : Action) :
    (g.step c a = none ∧ Noticed c g a) ∨
    ∃ g', g.step c a = some g' ∧ (NoneWaits c g' → SystemInv c g') ∧
      (NoneWaits c g' ↔ Noticed c g a) := by
  cases a with
  | appcall sockno e stays => exact spec_appcall hinv sockno e stays
  | connect sockno => exact .inr (spec_connect hinv sockno)
  | forget sockno => exact .inr (spec_forget hinv sockno)
  | prepare sockno => exact .inr (spec_prepare hinv sockno)
  | expire sockno => exact .inr (spec_expire hinv sockno)
  | configure =>
      exact .inr ⟨_, rfl, fun h => ⟨h, quiet_of_configured rfl⟩, iff_of_true hinv.noneWaits trivial⟩
  | accept => exact .inr ⟨_, rfl, fun h => ⟨h, hinv.quiet⟩, iff_of_true hinv.noneWaits trivial⟩
  | giveUp => exact .inr ⟨_, rfl, fun h => ⟨h, hinv.quiet⟩, iff_of_true hinv.noneWaits trivial⟩
  | reserve sockno =>
      refine .inr ⟨_, rfl, ?_⟩
      split
      next => exact spec_setConn hinv (iff_of_true nofun trivial)
      next => exact spec_self hinv trivial
  | syn sockno =>
      refine .inr ⟨_, rfl, ?_⟩
      split
      next => exact spec_setConn hinv (iff_of_true nofun trivial)
      next => exact spec_self hinv trivial
  | call sockno r =>
      refine .inr ⟨_, rfl, ?_⟩
      split
      next h =>
        exact ⟨fun hnone => ⟨hnone, quiet_of_configured h.1⟩, iff_of_true hinv.noneWaits trivial⟩
      next => exact spec_self hinv trivial

theorem systemInv_start : SystemInv c System.start where
  noneWaits _ _ := ⟨rfl, isTelnet_of_neg rfl⟩
  quiet _ := ⟨rfl, fun _ => rfl⟩

/-- **The end of a connection.**  In every state, the call that waits is released and the
telnet socket forgotten exactly if the report is heard; and in every run, no call waits on a
dead connection and none is the telnet socket exactly if each end is noticed. -/
theorem terminal_released (c : Config) :
    (∀ w sockno e, w.configured = true → e.reportsEnd = true →
      ∃ w' calls, eluaUipAppcall c w sockno e = some (w', calls) ∧
        (Released c w w' sockno e ↔ Heard c w sockno)) ∧
    ∀ as, (∀ n g, Transition.run (System.step c) .start (as.take n) = some g → NoneWaits c g) ↔
      Transition.Conforming (System.step c) (Noticed c) .start as := by
  constructor
  · intro w sockno e hconfigured he
    obtain ⟨w', hcall, hiff, -⟩ := @appcall_reportsEnd c _ sockno _ hconfigured he
    exact ⟨w', _, hcall, hiff⟩
  · intro as
    apply @Transition.forall_states_iff_of_partial _ _ _ _ (SystemInv c)
    · exact fun g hinv => hinv.noneWaits
    · exact fun g a hinv => step_spec hinv a
    · exact systemInv_start

/-! ## A receive whose connection is reset -/

/-- The peer connects, a receive is asked for, and the peer resets the connection. -/
def resetRun : List Action :=
  [.configure, .syn 0, .appcall 0 { Event.quiet 100 with connected := true } true,
    .call 0 (.recv (.buffer [0] 0) 1 (-1) false), .prepare 0,
    .appcall 0 { Event.quiet 100 with aborted := true } false]

/-- The call waits for ever. -/
theorem not_terminal_released :
    ¬∀ n g, Transition.run (System.step sampleConfig) .start (resetRun.take n) = some g →
      NoneWaits sampleConfig g := by
  intro hall
  have hidle := (hall 6 _ rfl 0 rfl).1
  revert hidle
  decide

end Uip
