import EluaWebServer.Uip.Appcall
import EluaWebServer.Lib.Transition

/-!
# Sending over TCP

A call of `elua_net_send` waits while uIP polls, acknowledges and asks for
retransmissions.  Next to the application runs what uIP knows: the segment that is not
acknowledged, and what has been.
-/

namespace Uip

open AppState

/-- A call of `elua_net_send` in progress, with the segment that is outstanding, the
bytes acknowledged, the new segments, the retransmissions (each with the segment that was
outstanding), and whether uIP has reported the end of the connection. -/
structure Sending where
  w : World
  outstanding : Option (List UInt8)
  acked : List UInt8
  segments : List (List UInt8)
  retransmitted : List (Option (List UInt8) × List UInt8)
  gone : Bool

/-- The events that uIP raises: it acknowledges and retransmits what is outstanding, and
polls when nothing is. -/
def Raised (m : Nat) (outstanding : Option (List UInt8)) (e : Event) : Prop :=
  e.mss = m ∧ e.connected = false ∧ (e.acked = true → outstanding.isSome = true) ∧
    (e.rexmit = true → outstanding.isSome = true ∧ e.acked = false) ∧
    (e.poll = true → outstanding.isSome = false)

instance (m : Nat) (outstanding : Option (List UInt8)) (e : Event) :
    Decidable (Raised m outstanding e) :=
  inferInstanceAs (Decidable (_ ∧ _))

/-- What uIP keeps of a segment that it is given. -/
def Sending.transmit (g : Sending) (e : Event) : UipCall → Sending
  | .send bytes =>
      if e.rexmit then { g with retransmitted := g.retransmitted ++ [(g.outstanding, bytes)] }
      else { g with outstanding := some bytes, segments := g.segments ++ [bytes] }
  | _ => g

/-- What uIP does before it calls the application. -/
def Sending.receive (g : Sending) (e : Event) : Sending :=
  let g := { g with gone := g.gone || e.terminal }
  if e.acked then { g with acked := g.acked ++ g.outstanding.getD [], outstanding := none } else g

/-- An event of the connection, unless the call has returned or uIP does not raise it. -/
def sendStep (c : Config) (sockno m : Nat) (g : Sending) (e : Event) : Option Sending :=
  if (g.w.socket sockno).state = ELUA_UIP_STATE_IDLE ∨ ¬Raised m g.outstanding e then some g
  else
    (eluaUipAppcall c g.w sockno e).map fun (w, calls) =>
      calls.foldl (·.transmit e ·) { g.receive e with w := w }

/-- What `elua_net_send` returns. -/
def sendResult (buf : List UInt8) (s : EluaUipState) : Int := buf.length - s.len

/-- The segments are consecutive slices of the buffer, a retransmission is what is
outstanding, and what the call would return is the number of bytes acknowledged: all of
them when it returns while the connection is up. -/
structure SendOk (buf : List UInt8) (sockno : Nat) (g : Sending) : Prop where
  slices : g.segments.flatten = g.acked ++ g.outstanding.getD []
  within : g.acked ++ g.outstanding.getD [] <+: buf
  retransmitted : ∀ r ∈ g.retransmitted, r.1 = some r.2
  result : sendResult buf (g.w.socket sockno) = g.acked.length
  complete : (g.w.socket sockno).state = ELUA_UIP_STATE_IDLE → g.gone = false → g.acked = buf

/-- An event does not both acknowledge a segment and end the connection. -/
def AckKept (sockno m : Nat) (g : Sending) (e : Event) : Prop :=
  (g.w.socket sockno).state ≠ ELUA_UIP_STATE_IDLE → Raised m g.outstanding e →
    ¬(e.acked = true ∧ e.terminal = true)

instance (sockno m : Nat) (g : Sending) (e : Event) : Decidable (AckKept sockno m g e) :=
  inferInstanceAs (Decidable (_ → _ → _))

/-- Before the first event. -/
def Sending.start (w : World) (sockno : Nat) (buf : List UInt8) : Sending :=
  ⟨w.set sockno (prepSend buf), none, [], [], [], false⟩

/-! ## The application while data is sent -/

section

variable {c : Config} {w : World} {sockno : Nat} {s : EluaUipState} {e : Event}

theorem take_umin (bytes : List UInt8) (m : Nat) :
    bytes.take (umin bytes.length m).toNat = bytes.take m := by
  unfold umin
  split
  next hle =>
    rw [Int.toNat_natCast, List.take_length, List.take_of_length_le (Int.ofNat_le.mp hle)]
  next => rw [Int.toNat_natCast]

theorem drop_umin (bytes : List UInt8) (m : Nat) :
    bytes.drop (umin bytes.length m).toNat = bytes.drop m := by
  unfold umin
  split
  next hle =>
    rw [Int.toNat_natCast, List.drop_length, List.drop_of_length_le (Int.ofNat_le.mp hle)]
  next => rw [Int.toNat_natCast]

theorem sub_umin (bytes : List UInt8) (m : Nat) :
    (bytes.length : Int) - umin bytes.length m = (bytes.drop m).length := by
  rw [List.length_drop]
  unfold umin
  split <;> omega

/-- The slice that is sent next. -/
theorem read_umin (bytes : List UInt8) (m : Nat) :
    Ptr.read (umin bytes.length m) (.data bytes) = some (bytes.take m) := by
  have hle : umin bytes.length m ≤ bytes.length := by
    unfold umin
    split <;> omega
  rw [Ptr.read, if_pos hle, take_umin]

/-- The state of a connection that has `bytes` to send. -/
def sendState (bytes : List UInt8) : EluaUipState :=
  ⟨ELUA_UIP_STATE_SEND, ELUA_NET_ERR_OK, .data bytes, bytes.length, ELUA_NET_NO_LASTCHAR⟩

/-- A poll or a retransmission. -/
theorem handleSend_of_not_acked {bytes : List UInt8} (hacked : e.acked = false)
    (hbytes : bytes ≠ []) :
    handleSend c false (sendState bytes) e =
      some (sendState bytes, [.send (bytes.take e.mss)]) := by
  have hpos : (0 : Int) < bytes.length := Int.natCast_pos.mpr (List.length_pos_of_ne_nil hbytes)
  unfold handleSend
  rw [hacked]
  dsimp only [sendState]
  rw [if_neg Bool.false_ne_true, if_pos hpos, if_neg Bool.false_ne_true, read_umin]
  rfl

/-- An acknowledgement. -/
theorem handleSend_of_acked (bytes : List UInt8) (hacked : e.acked = true) :
    handleSend c false (sendState bytes) e =
      some (if bytes.drop e.mss = [] then
          ({ sendState [] with state := ELUA_UIP_STATE_IDLE }, [])
        else (sendState (bytes.drop e.mss), [.send ((bytes.drop e.mss).take e.mss)])) := by
  unfold handleSend
  rw [hacked, if_pos rfl]
  simp only [sendState, Ptr.advance, sub_umin, drop_umin]
  by_cases hrest : bytes.drop e.mss = []
  · rw [hrest, if_pos rfl]
    rfl
  · have hpos : (0 : Int) < (bytes.drop e.mss).length :=
      Int.natCast_pos.mpr (List.length_pos_of_ne_nil hrest)
    have hzero : ¬((bytes.drop e.mss).length : Int) = 0 := Int.ne_of_gt hpos
    rw [if_neg hzero, if_pos hpos, if_neg Bool.false_ne_true, if_neg hrest, read_umin]
    rfl

theorem appcall_send (hconfigured : w.configured = true)
    (htelnet : w.isTelnet c sockno = false) (hconnected : e.connected = false)
    (hs : (w.socket sockno).state = ELUA_UIP_STATE_SEND) (hterminal : e.terminal = false)
    (hsend : (e.acked || e.rexmit || e.poll) = true) :
    eluaUipAppcall c w sockno e =
      (handleSend c false (w.socket sockno) e).map fun r => (w.set sockno r.1, r.2) := by
  unfold eluaUipAppcall
  simp [hconfigured, hconnected, hs, hterminal, htelnet, hsend]

theorem appcall_other (hconfigured : w.configured = true) (hconnected : e.connected = false)
    (hs : (w.socket sockno).state = ELUA_UIP_STATE_SEND) (hterminal : e.terminal = false)
    (hsend : (e.acked || e.rexmit || e.poll) = false) :
    eluaUipAppcall c w sockno e = some (w, if e.newdata then [.stop] else []) := by
  unfold eluaUipAppcall
  cases e.newdata <;> simp [hconfigured, hconnected, hs, hterminal, hsend]

end

/-! ## One event -/

variable {c : Config} {sockno m : Nat} {buf : List UInt8} {g : Sending} {e : Event}

/-- While the call waits: what is left to send begins with what is outstanding. -/
structure Waiting (buf : List UInt8) (sockno m : Nat) (g : Sending) (rest : List UInt8) :
    Prop where
  socket : g.w.socket sockno = sendState rest
  buf : buf = g.acked ++ rest
  ne_nil : rest ≠ []
  outstanding : ∀ seg, g.outstanding = some seg → seg = rest.take m
  slices : g.segments.flatten = g.acked ++ g.outstanding.getD []
  retransmitted : ∀ r ∈ g.retransmitted, r.1 = some r.2
  gone : g.gone = false

/-- What holds before and after every event. -/
structure SendInv (c : Config) (buf : List UInt8) (sockno m : Nat) (g : Sending) : Prop where
  configured : g.w.configured = true
  telnet : g.w.isTelnet c sockno = false
  ok : SendOk buf sockno g
  waiting : (g.w.socket sockno).state ≠ ELUA_UIP_STATE_IDLE →
    ∃ rest, Waiting buf sockno m g rest

theorem Waiting.ok {rest : List UInt8} (h : Waiting buf sockno m g rest) :
    SendOk buf sockno g where
  slices := h.slices
  within := by
    rw [h.buf, List.prefix_append_right_inj]
    cases hseg : g.outstanding with
    | none => exact List.nil_prefix
    | some seg =>
        rw [h.outstanding seg hseg]
        exact List.take_prefix m rest
  retransmitted := h.retransmitted
  result := by
    have hlen := congrArg List.length h.buf
    rw [List.length_append] at hlen
    rw [sendResult, h.socket, hlen]
    dsimp only [sendState]
    omega
  complete := by
    rw [h.socket]
    exact nofun

theorem waiting_start (w : World) (hbuf : buf ≠ []) :
    Waiting buf sockno m (.start w sockno buf) buf where
  socket := Function.update_self _ _ _
  buf := rfl
  ne_nil := hbuf
  outstanding := nofun
  slices := rfl
  retransmitted := nofun
  gone := rfl

theorem Waiting.state_eq {rest : List UInt8} (h : Waiting buf sockno m g rest) :
    (g.w.socket sockno).state = ELUA_UIP_STATE_SEND := by
  rw [h.socket]
  rfl

/-- An event that uIP raises, while the call waits. -/
theorem Waiting.sendStep_eq {rest : List UInt8} (h : Waiting buf sockno m g rest)
    (hraised : Raised m g.outstanding e) :
    sendStep c sockno m g e = (eluaUipAppcall c g.w sockno e).map fun r =>
      r.2.foldl (·.transmit e ·) { g.receive e with w := r.1 } := by
  have hgo : ¬((g.w.socket sockno).state = ELUA_UIP_STATE_IDLE ∨ ¬Raised m g.outstanding e) := by
    rw [h.state_eq, not_or, not_not]
    exact ⟨nofun, hraised⟩
  exact if_neg hgo

theorem Waiting.outstanding_of_isSome {rest : List UInt8} (h : Waiting buf sockno m g rest)
    (hsome : g.outstanding.isSome = true) : g.outstanding = some (rest.take m) := by
  obtain ⟨seg, hseg⟩ := Option.isSome_iff_exists.mp hsome
  rw [hseg, h.outstanding seg hseg]

theorem take_ne_nil {rest : List UInt8} (hrest : rest ≠ []) (hm : 0 < m) : rest.take m ≠ [] := by
  rw [ne_eq, List.take_eq_nil_iff, not_or]
  exact ⟨Nat.ne_of_gt hm, hrest⟩

/-- The application when the connection ends. -/
theorem exists_terminal (hinv : SendInv c buf sockno m g) {rest : List UInt8}
    (hwait : Waiting buf sockno m g rest) (hconnected : e.connected = false)
    (hterminal : e.terminal = true) :
    ∃ w, eluaUipAppcall c g.w sockno e = some (w, []) ∧ w.configured = true ∧
      w.isTelnet c sockno = false ∧ (w.socket sockno).state = ELUA_UIP_STATE_IDLE ∧
      (w.socket sockno).len = rest.length := by
  have hstate := hwait.state_eq
  have hidle : (g.w.socket sockno).state ≠ ELUA_UIP_STATE_IDLE := by
    rw [hstate]
    exact nofun
  have hrecv : (g.w.socket sockno).state ≠ ELUA_UIP_STATE_RECV := by
    rw [hstate]
    exact nofun
  have hcall := appcall_terminal (c := c) hinv.configured hconnected hidle hrecv hterminal
  rw [hinv.telnet, hwait.socket] at hcall
  refine ⟨_, hcall, hinv.configured, hinv.telnet, ?_, ?_⟩
  · rw [socket_set]
  · rw [socket_set]
    rfl

/-- The end of the connection. -/
theorem step_terminal (hinv : SendInv c buf sockno m g) {rest : List UInt8}
    (hwait : Waiting buf sockno m g rest) (hraised : Raised m g.outstanding e)
    (hterminal : e.terminal = true) (hm : 0 < m) :
    ∃ g', sendStep c sockno m g e = some g' ∧ (SendOk buf sockno g' → SendInv c buf sockno m g') ∧
      (SendOk buf sockno g' ↔ e.acked = false) := by
  have hok := hwait.ok
  obtain ⟨w, hcall, hconfigured, htelnet, hidle, hlen⟩ :=
    exists_terminal hinv hwait hraised.2.1 hterminal
  have hstep := hwait.sendStep_eq (c := c) hraised
  rw [hcall, Option.map_some] at hstep
  have hresult := hok.result
  rw [hwait.socket] at hresult
  have hresult' : sendResult buf (w.socket sockno) = g.acked.length := by
    rw [sendResult, hlen]
    exact hresult
  refine ⟨{ g.receive e with w := w }, hstep, ?_, ?_⟩
  · exact fun hok' => ⟨hconfigured, htelnet, hok', fun hne => absurd hidle hne⟩
  · cases hacked : e.acked with
    | true =>
        -- The segment is acknowledged, but not counted.
        apply iff_of_false
        · intro hok'
          have hseg := hwait.outstanding_of_isSome (hraised.2.2.1 hacked)
          have hreceived : (g.receive e).acked = g.acked ++ rest.take m := by
            unfold Sending.receive
            rw [hacked, hseg]
            rfl
          have hpos := List.length_pos_of_ne_nil (take_ne_nil hwait.ne_nil hm)
          have hcount := hok'.result
          dsimp only at hcount
          rw [hresult', hreceived, List.length_append] at hcount
          omega
        · exact nofun
    | false =>
        have hreceive : g.receive e = { g with gone := true } := by
          unfold Sending.receive
          rw [hacked, hterminal, Bool.or_true]
          rfl
        rw [hreceive]
        exact iff_of_true ⟨hok.slices, hok.within, hok.retransmitted, hresult', nofun⟩ rfl

/-- An acknowledgement. -/
theorem step_acked (hinv : SendInv c buf sockno m g) {rest : List UInt8}
    (hwait : Waiting buf sockno m g rest) (hraised : Raised m g.outstanding e)
    (hterminal : e.terminal = false) (hacked : e.acked = true) :
    ∃ g', sendStep c sockno m g e = some g' ∧ SendInv c buf sockno m g' := by
  have hseg := hwait.outstanding_of_isSome (hraised.2.2.1 hacked)
  have hrexmit : e.rexmit = false := by
    cases h : e.rexmit with
    | true => exact absurd (hraised.2.2.2.1 h).2 (by rw [hacked]; exact nofun)
    | false => rfl
  have hreceive : g.receive e = { g with acked := g.acked ++ rest.take m, outstanding := none } := by
    unfold Sending.receive
    rw [hacked, hterminal, Bool.or_false, hseg]
    rfl
  have hcall := appcall_send (c := c) hinv.configured hinv.telnet hraised.2.1 hwait.state_eq
    hterminal (by rw [hacked]; rfl)
  rw [hwait.socket, handleSend_of_acked rest hacked, hraised.1, Option.map_some] at hcall
  have hstep := hwait.sendStep_eq (c := c) hraised
  rw [hcall, Option.map_some, hreceive] at hstep
  have hbuf : buf = (g.acked ++ rest.take m) ++ rest.drop m := by
    rw [List.append_assoc, List.take_append_drop]
    exact hwait.buf
  have hslices : g.segments.flatten = g.acked ++ rest.take m := by
    rw [hwait.slices, hseg]
    rfl
  refine ⟨_, hstep, ?_⟩
  by_cases hrest : rest.drop m = []
  · rw [if_pos hrest]
    rw [hrest, List.append_nil] at hbuf
    have hidle : ((g.w.set sockno { sendState [] with state := ELUA_UIP_STATE_IDLE }).socket
        sockno).state = ELUA_UIP_STATE_IDLE := by
      rw [socket_set]
    refine ⟨hinv.configured, hinv.telnet, ⟨?_, ?_, hwait.retransmitted, ?_, fun _ _ => hbuf.symm⟩,
      fun hne => absurd hidle hne⟩
    · exact hslices.trans (List.append_nil _).symm
    · dsimp only [List.foldl_nil]
      rw [← hbuf]
      exact ⟨[], (List.append_nil _).trans (List.append_nil _)⟩
    · dsimp only [List.foldl_nil]
      rw [socket_set, ← hbuf]
      exact Int.sub_zero _
  · rw [if_neg hrest]
    have hwait' : Waiting buf sockno m { g with
        w := g.w.set sockno (sendState (rest.drop m))
        acked := g.acked ++ rest.take m
        outstanding := some ((rest.drop m).take m)
        segments := g.segments ++ [(rest.drop m).take m] } (rest.drop m) := by
      refine ⟨socket_set _ _ _, hbuf, hrest, ?_, ?_, hwait.retransmitted, hwait.gone⟩
      · intro seg heq
        exact (Option.some.inj heq).symm
      · dsimp only
        rw [List.flatten_append, hslices, List.flatten_singleton]
        rfl
    have htransmit : Sending.transmit { g with
        w := g.w.set sockno (sendState (rest.drop m))
        acked := g.acked ++ rest.take m
        outstanding := none } e (.send ((rest.drop m).take m)) = { g with
        w := g.w.set sockno (sendState (rest.drop m))
        acked := g.acked ++ rest.take m
        outstanding := some ((rest.drop m).take m)
        segments := g.segments ++ [(rest.drop m).take m] } := by
      unfold Sending.transmit
      rw [hrexmit]
      rfl
    rw [List.foldl_cons, List.foldl_nil, htransmit]
    exact ⟨hinv.configured, hinv.telnet, hwait'.ok, fun _ => ⟨_, hwait'⟩⟩

/-- A poll or a retransmission. -/
theorem step_transmit (hinv : SendInv c buf sockno m g) {rest : List UInt8}
    (hwait : Waiting buf sockno m g rest) (hraised : Raised m g.outstanding e)
    (hterminal : e.terminal = false) (hacked : e.acked = false)
    (hsend : (e.rexmit || e.poll) = true) :
    ∃ g', sendStep c sockno m g e = some g' ∧ SendInv c buf sockno m g' := by
  have hreceive : g.receive e = g := by
    unfold Sending.receive
    rw [hacked, hterminal, Bool.or_false]
    rfl
  have hcall := appcall_send (c := c) hinv.configured hinv.telnet hraised.2.1 hwait.state_eq
    hterminal (by rw [Bool.or_assoc, hsend, Bool.or_true])
  rw [hwait.socket, handleSend_of_not_acked hacked hwait.ne_nil, hraised.1, Option.map_some,
    set_eq_self hwait.socket] at hcall
  have hstep := hwait.sendStep_eq (c := c) hraised
  rw [hcall, Option.map_some, hreceive] at hstep
  refine ⟨_, hstep, ?_⟩
  rw [List.foldl_cons, List.foldl_nil]
  cases hrexmit : e.rexmit with
  | true =>
      have hseg := hwait.outstanding_of_isSome (hraised.2.2.2.1 hrexmit).1
      have htransmit : g.transmit e (.send (rest.take m)) =
          { g with retransmitted := g.retransmitted ++ [(g.outstanding, rest.take m)] } := by
        unfold Sending.transmit
        rw [hrexmit]
        rfl
      have hwait' : Waiting buf sockno m
          { g with retransmitted := g.retransmitted ++ [(g.outstanding, rest.take m)] } rest := by
        refine ⟨hwait.socket, hwait.buf, hwait.ne_nil, hwait.outstanding, hwait.slices, ?_,
          hwait.gone⟩
        intro r hr
        rcases List.mem_append.mp hr with hr | hr
        · exact hwait.retransmitted r hr
        · obtain rfl := List.mem_singleton.mp hr
          exact hseg
      rw [htransmit]
      exact ⟨hinv.configured, hinv.telnet, hwait'.ok, fun _ => ⟨_, hwait'⟩⟩
  | false =>
      have hpoll : e.poll = true := by
        rw [hrexmit] at hsend
        exact hsend
      have hnone : g.outstanding = none := by
        have hisNone := hraised.2.2.2.2 hpoll
        cases h : g.outstanding with
        | none => rfl
        | some seg =>
            rw [h] at hisNone
            cases hisNone
      have htransmit : g.transmit e (.send (rest.take m)) = { g with
          outstanding := some (rest.take m), segments := g.segments ++ [rest.take m] } := by
        unfold Sending.transmit
        rw [hrexmit]
        rfl
      have hwait' : Waiting buf sockno m { g with
          outstanding := some (rest.take m), segments := g.segments ++ [rest.take m] } rest := by
        refine ⟨hwait.socket, hwait.buf, hwait.ne_nil, ?_, ?_, hwait.retransmitted, hwait.gone⟩
        · intro seg heq
          exact (Option.some.inj heq).symm
        · dsimp only
          rw [List.flatten_append, hwait.slices, hnone, List.flatten_singleton]
          exact congrArg (· ++ rest.take m) (List.append_nil g.acked)
      rw [htransmit]
      exact ⟨hinv.configured, hinv.telnet, hwait'.ok, fun _ => ⟨_, hwait'⟩⟩

/-- Anything else. -/
theorem step_other (hinv : SendInv c buf sockno m g) {rest : List UInt8}
    (hwait : Waiting buf sockno m g rest) (hraised : Raised m g.outstanding e)
    (hterminal : e.terminal = false) (hsend : (e.acked || e.rexmit || e.poll) = false) :
    ∃ g', sendStep c sockno m g e = some g' ∧ SendInv c buf sockno m g' := by
  have hacked : e.acked = false := by
    cases h : e.acked with
    | true => rw [h] at hsend; cases hsend
    | false => rfl
  have hreceive : g.receive e = g := by
    unfold Sending.receive
    rw [hacked, hterminal, Bool.or_false]
    rfl
  refine ⟨g, ?_, hinv⟩
  rw [hwait.sendStep_eq hraised,
    appcall_other hinv.configured hraised.2.1 hwait.state_eq hterminal hsend, Option.map_some,
    hreceive]
  cases e.newdata <;> rfl

/-- **One event.** -/
theorem sendStep_spec (hinv : SendInv c buf sockno m g) (hm : 0 < m) (e : Event) :
    ∃ g', sendStep c sockno m g e = some g' ∧ (SendOk buf sockno g' → SendInv c buf sockno m g') ∧
      (SendOk buf sockno g' ↔ AckKept sockno m g e) := by
  by_cases hidle : (g.w.socket sockno).state = ELUA_UIP_STATE_IDLE ∨ ¬Raised m g.outstanding e
  · refine ⟨g, if_pos hidle, fun _ => hinv, iff_of_true hinv.ok ?_⟩
    intro hne hraised
    exact (hidle.elim hne fun hnot => hnot hraised).elim
  · obtain ⟨hne, hraised⟩ := not_or.mp hidle
    rw [not_not] at hraised
    obtain ⟨rest, hwait⟩ := hinv.waiting hne
    have hkept : AckKept sockno m g e ↔ ¬(e.acked = true ∧ e.terminal = true) :=
      ⟨fun h => h hne hraised, fun h _ _ => h⟩
    have hgood : ∀ {P : Prop}, (∃ g', sendStep c sockno m g e = some g' ∧ SendInv c buf sockno m g') →
        P → ∃ g', sendStep c sockno m g e = some g' ∧
          (SendOk buf sockno g' → SendInv c buf sockno m g') ∧ (SendOk buf sockno g' ↔ P) := by
      rintro P ⟨g', hstep, hinv'⟩ hP
      exact ⟨g', hstep, fun _ => hinv', iff_of_true hinv'.ok hP⟩
    rw [hkept]
    cases hterminal : e.terminal with
    | true =>
        obtain ⟨g', hstep, hinv', hiff⟩ := step_terminal hinv hwait hraised hterminal hm
        refine ⟨g', hstep, hinv', hiff.trans ?_⟩
        simp
    | false =>
        cases hacked : e.acked with
        | true => exact hgood (step_acked hinv hwait hraised hterminal hacked) (by simp)
        | false =>
            cases hsend : e.rexmit || e.poll with
            | true =>
                exact hgood (step_transmit hinv hwait hraised hterminal hacked hsend) (by simp)
            | false =>
                have hnone : (e.acked || e.rexmit || e.poll) = false := by
                  rw [Bool.or_assoc, hacked, hsend]
                  rfl
                exact hgood (step_other hinv hwait hraised hterminal hnone) (by simp)

def sampleWorld : World :=
  ⟨true, -1, false, -1, (0, 0), fun _ => ⟨ELUA_UIP_STATE_IDLE, 0, .null, 0, -1⟩⟩

def pollEvent : Event := { Event.quiet 2 with poll := true }

def rexmitEvent : Event := { Event.quiet 2 with rexmit := true }

def ackEvent : Event := { Event.quiet 2 with acked := true }

end Uip
