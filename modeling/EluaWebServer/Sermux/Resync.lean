import EluaWebServer.Lib.Transition
import EluaWebServer.Sermux.Link
import EluaWebServer.Sermux.RoundTrip

/-!
# Resynchronisation

Both ends of the line, joined by two byte queues, with sends of either side,
the receive interrupt between any two statements of `platform_uart_send`, and
restarts of either side.

The retransmission memory holds one byte, so the protocol resynchronises in
the runs in which no byte is sent while one is being asked for, no request
finds a send half done, and no restart makes the other side ask for more than
the byte it can get or lose the memory that a request needs
(`sermux_resynchronises`); in others it does not
(`sermux_not_resynchronised`).
-/

namespace Sermux

/-! ## The two ends -/

/-- The state of both ends and the line.  `uartFresh`, `muxFresh` and the
lists of bytes sent and delivered since the receiver's restart are not part of
the program. -/
structure System where
  uart : Uart
  sending : Option Sending
  mux : Mux
  stopped : Option MuxError
  toMux : Line
  toUart : Line
  uartFresh : Bool
  muxFresh : Bool
  sentToMux : List (UInt8 × UInt8)
  gotAtMux : List (MuxService × UInt8)
  sentToUart : List (UInt8 × UInt8)
  gotAtUart : List (UInt8 × UInt8)
  forceDelivered : Bool
  deriving DecidableEq

def System.init : System :=
  ⟨Uart.init, none, Mux.init, none, [], [], false, false, [], [], [], [], false⟩

inductive Action where
  | uartSend (id data : UInt8)
  | uartResume
  | uartReceive
  | muxSend (service : MuxService) (c : UInt8)
  | muxReceive
  | restartUart
  | restartMux
  deriving DecidableEq, Repr

/-- The next statement of a send puts the character of the data byte on the
line. -/
def Sending.emits (p : Sending) : Bool :=
  p.point = .emitEscaped || (p.point = .emitData && !needsEscape p.data)

/-- One step of either end; `none` when it is not possible. -/
def step (numVuart : Nat) (cfg : MuxConfig) (s : System) : Action → Option System
  | .uartSend id data =>
      if s.sending = none ∧ isVuart numVuart id = true then
        let (sending, bytes) := sendStart s.uart id data
        some { s with sending := some sending, toMux := s.toMux ++ cells true bytes }
      else none
  | .uartResume =>
      match s.sending with
      | none => none
      | some p =>
          let (u, sending, bytes) := sendStep s.uart p
          some { s with
            uart := u
            sending := sending
            toMux := s.toMux ++ cells true bytes
            uartFresh := p.emits || s.uartFresh
            sentToMux := if p.emits then s.sentToMux ++ [(p.id, p.data)] else s.sentToMux }
  | .uartReceive =>
      match s.toUart with
      | [] => none
      | c :: cs =>
          let (u, e) := cmnRxHandler numVuart s.uart c.byte
          some { s with
            uart := u
            toUart := cs
            toMux := s.toMux ++ cells s.uartFresh e.sent
            gotAtUart := s.gotAtUart ++ if c.fresh then e.delivered else []
            forceDelivered := s.forceDelivered ||
              (c.byte = SERMUX_FORCE_SID_CHAR && e.delivered ≠ []) }
  | .muxSend service c =>
      if s.stopped = none then
        let (m, bytes) := muxSend cfg s.mux service c
        some { s with
          mux := m
          toUart := s.toUart ++ cells true bytes
          muxFresh := true
          sentToUart := s.sentToUart ++ [(cfg.serviceId service, c)] }
      else none
  | .muxReceive =>
      match s.stopped, s.toMux with
      | none, c :: cs =>
          match muxReceive cfg s.mux c.byte with
          | .error err => some { s with stopped := some err, toMux := cs }
          | .ok (m, e) =>
              some { s with
                mux := m
                toMux := cs
                toUart := s.toUart ++ cells s.muxFresh e.sent
                gotAtMux := s.gotAtMux ++ if c.fresh then e.delivered else []
                forceDelivered := s.forceDelivered ||
                  (c.byte = SERMUX_FORCE_SID_CHAR && e.delivered ≠ []) }
      | _, _ => none
  | .restartUart =>
      some { s with
        uart := Uart.init
        sending := none
        toUart := stale s.toUart
        muxFresh := false
        sentToUart := []
        gotAtUart := [] }
  | .restartMux =>
      some { s with
        mux := Mux.init
        stopped := none
        toMux := stale s.toMux
        uartFresh := false
        sentToMux := []
        gotAtMux := [] }

/-! ## The property and its condition -/

/-- The services of the mux that the bytes sent under service ids are for. -/
def MuxConfig.routed (cfg : MuxConfig) (msgs : List (UInt8 × UInt8)) :
    List (Option MuxService × UInt8) :=
  msgs.map fun msg => (cfg.service? msg.1, msg.2)

/-- The request character was not taken for data, the mux runs, and what each
side received since its last restart is what the other one sent, as far as it
has arrived. -/
structure Resynchronised (cfg : MuxConfig) (s : System) : Prop where
  running : s.stopped = none
  noForce : s.forceDelivered = false
  mux : s.gotAtMux.map (fun msg => (some msg.1, msg.2)) <+: cfg.routed s.sentToMux
  muxAll : s.toMux = [] → forces s.toUart = 0 →
    s.gotAtMux.map (fun msg => (some msg.1, msg.2)) = cfg.routed s.sentToMux
  uart : s.gotAtUart <+: s.sentToUart
  uartAll : s.toUart = [] → forces s.toMux = 0 → s.gotAtUart = s.sentToUart

/-- The ids of the services that both ends know. -/
def KnownId (numVuart : Nat) (cfg : MuxConfig) (id : UInt8) : Prop :=
  isVuart numVuart id = true ∧ (cfg.service? id).isSome = true

/-- Only services that both ends know are used. -/
def Known (numVuart : Nat) (cfg : MuxConfig) : Action → Prop
  | .uartSend id _ => KnownId numVuart cfg id
  | .muxSend service _ => Configured numVuart cfg service
  | _ => True

/-- The direction towards the mux; `got` names what it delivered by ids. -/
def System.muxDir (s : System) (got : List (UInt8 × UInt8)) : Dir :=
  ⟨s.mux.serviceIdIn, s.mux.gotEsc, s.uart.serviceIdOut, s.uart.lastSent, s.uartFresh,
    s.sending, s.toMux, s.sentToMux, got⟩

/-- The direction towards the eLua side. -/
def System.uartDir (s : System) : Dir :=
  ⟨s.uart.serviceIdIn, s.uart.gotEsc, s.mux.serviceIdOut, s.mux.prevSent, s.muxFresh,
    none, s.toUart, s.sentToUart, s.gotAtUart⟩

/-- The requests to the eLua side that are in flight or will be made. -/
def System.requestsToUart (s : System) : Nat :=
  unlabelled s.mux.serviceIdIn s.toMux + forces s.toUart

/-- The requests to the mux that are in flight or will be made. -/
def System.requestsToMux (s : System) : Nat :=
  unlabelled s.uart.serviceIdIn s.toUart + forces s.toMux

/-- The steps that the one-byte memory is enough for. -/
def StepOk (s : System) : Action → Prop
  | .uartSend id _ => s.uart.serviceIdOut = some id ∨ s.requestsToUart = 0
  | .uartResume =>
      (∃ p ∈ s.sending, p.point = .setLast) → s.requestsToUart = 0
  | .uartReceive =>
      (∃ c ∈ s.toUart.head?, c.byte = SERMUX_FORCE_SID_CHAR) →
        Quiet s.uart.serviceIdOut s.sending
  | .muxSend _ _ => s.requestsToMux = 0
  | .muxReceive => True
  | .restartUart =>
      (unlabelled none s.toUart + forces s.toMux = 0 ∨
        unlabelled none s.toUart + forces s.toMux = 1 ∧ s.mux.prevSent ≠ none) ∧
      s.requestsToUart = 0 ∧ finalEsc s.mux.gotEsc s.toMux = false
  | .restartMux =>
      (unlabelled none s.toMux + forces s.toUart = 0 ∨
        unlabelled none s.toMux + forces s.toUart = 1 ∧
          resend s.uart.serviceIdOut s.uart.lastSent s.sending ≠ none) ∧
      s.requestsToMux = 0

instance (numVuart : Nat) (cfg : MuxConfig) : (a : Action) → Decidable (Known numVuart cfg a)
  | .uartSend _ _ => inferInstanceAs (Decidable (_ ∧ _))
  | .muxSend service _ =>
      decidable_of_iff (isVuart numVuart (cfg.serviceId service) = true ∧
        cfg.service? (cfg.serviceId service) = some service)
        ⟨fun h => ⟨h.1, h.2⟩, fun h => ⟨h.vuart, h.service⟩⟩
  | .uartResume | .uartReceive | .muxReceive | .restartUart | .restartMux =>
      inferInstanceAs (Decidable True)

instance (s : System) : (a : Action) → Decidable (StepOk s a)
  | .uartSend _ _ => inferInstanceAs (Decidable (_ ∨ _))
  | .uartResume =>
      inferInstanceAs (Decidable ((∃ p ∈ s.sending, p.point = .setLast) → s.requestsToUart = 0))
  | .uartReceive =>
      inferInstanceAs (Decidable ((∃ c ∈ s.toUart.head?, c.byte = SERMUX_FORCE_SID_CHAR) →
        Quiet s.uart.serviceIdOut s.sending))
  | .muxSend _ _ => inferInstanceAs (Decidable (_ = _))
  | .muxReceive => inferInstanceAs (Decidable True)
  | .restartUart => inferInstanceAs (Decidable (_ ∧ _))
  | .restartMux => inferInstanceAs (Decidable (_ ∧ _))

/-! ## The invariant -/

/-- Both directions are linked. -/
structure Inv (numVuart : Nat) (cfg : MuxConfig) (s : System) : Prop where
  running : s.stopped = none
  noForce : s.forceDelivered = false
  muxLinked : ∃ got, cfg.routed got = s.gotAtMux.map (fun msg => (some msg.1, msg.2)) ∧
    (s.muxDir got).Linked (KnownId numVuart cfg) (forces s.toUart)
  uartLinked : s.uartDir.Linked (isVuart numVuart · = true) (forces s.toMux)

theorem Inv.resynchronised {numVuart : Nat} {cfg : MuxConfig} {s : System}
    (h : Inv numVuart cfg s) : Resynchronised cfg s := by
  obtain ⟨hrun, hforce, ⟨got, hgot, hmux⟩, huart⟩ := h
  obtain ⟨hmuxPre, hmuxAll⟩ := hmux.delivered
  obtain ⟨huartPre, huartAll⟩ := huart.delivered
  refine ⟨hrun, hforce, ?_, ?_, huartPre, huartAll⟩
  · rw [← hgot]
    exact hmuxPre.map _
  · intro hline hasked
    rw [← hgot]
    exact congrArg cfg.routed (hmuxAll hline hasked)

theorem inv_init (numVuart : Nat) (cfg : MuxConfig) : Inv numVuart cfg System.init :=
  ⟨rfl, rfl, ⟨[], rfl, Dir.linked_init _⟩, Dir.linked_init _⟩

/-! Bytes without a request leave the number of requests as it is. -/

theorem forces_append_cells {bytes : List UInt8} (h : ∀ b ∈ bytes, b ≠ SERMUX_FORCE_SID_CHAR)
    (line : Line) (f : Bool) : forces (line ++ cells f bytes) = forces line := by
  have hzero : forces (cells f bytes) = 0 := by
    unfold forces cells
    rw [List.countP_eq_zero]
    intro c hc
    obtain ⟨b, hb, rfl⟩ := List.mem_map.mp hc
    simp only [decide_eq_true_eq]
    exact h b hb
  rw [forces_append, hzero, Nat.add_zero]

theorem ne_force_of_mem_bytes {data b : UInt8} (h : b ∈ (sentAs data).bytes) :
    b ≠ SERMUX_FORCE_SID_CHAR := by
  have hchar := ne_force (needsEscape_sentAs data)
  unfold LastSent.bytes at h
  cases hesc : (sentAs data).esc with
  | false =>
      rw [hesc, if_neg Bool.false_ne_true, List.mem_singleton] at h
      exact h ▸ hchar
  | true =>
      rw [hesc, if_pos rfl, List.mem_cons, List.mem_singleton] at h
      rcases h with rfl | rfl
      · decide
      · exact hchar

theorem ne_force_of_mem_messageBytes {out : Option UInt8} {id data b : UInt8}
    (hid : id ≠ SERMUX_FORCE_SID_CHAR) (h : b ∈ messageBytes out id data) :
    b ≠ SERMUX_FORCE_SID_CHAR := by
  rcases List.mem_append.mp h with hb | hb
  · by_cases hout : out = some id
    · rw [if_neg (not_not.mpr hout)] at hb
      cases hb
    · rw [if_pos hout, List.mem_singleton] at hb
      exact hb ▸ hid
  · exact ne_force_of_mem_bytes hb

/-! ## A byte that is taken -/

/-- What taking a byte does to the two directions: that of the byte, and the
other one, in which the receiver may have to send something. -/
inductive Taken (ok ok' : UInt8 → Prop) (d other : Dir) (c : Cell) (cs : Line) : Prop where
  | escape (byte : c.byte = SERMUX_ESCAPE_CHAR)
      (this : Dir.Linked ok { d with esc := true, line := cs } (forces other.line))
      (that : other.Linked ok' (forces cs))
  | service (byte : ok c.byte)
      (this : Dir.Linked ok { d with cur := some c.byte, line := cs } (forces other.line))
      (that : other.Linked ok' (forces cs))
  | force (byte : c.byte = SERMUX_FORCE_SID_CHAR) (s data : UInt8)
      (out : other.out = some s) (last : other.last = some (sentAs data))
      (this : Dir.Linked ok { d with line := cs } (forces (other.answer s (sentAs data)).line))
      (that : (other.answer s (sentAs data)).Linked ok' (forces cs))
  | lost (byte : needsEscape c.byte = false)
      (escaped : d.esc = true → needsEscape (unescape true c.byte) = true) (cur : d.cur = none)
      (this : Dir.Linked ok { d with esc := false, line := cs } (forces other.request.line))
      (that : other.request.Linked ok' (forces cs))
  | data (byte : needsEscape c.byte = false)
      (escaped : d.esc = true → needsEscape (unescape true c.byte) = true)
      (s : UInt8) (cur : d.cur = some s) (known : ok s)
      (this : Dir.Linked ok { d with
        esc := false
        line := cs
        got := d.got ++ if c.fresh then [(s, unescape d.esc c.byte)] else [] } (forces other.line))
      (that : other.Linked ok' (forces cs))

theorem taken {ok ok' : UInt8 → Prop} {d other : Dir} {c : Cell} {cs : Line}
    (hd : d.Linked ok (forces other.line)) (hline : d.line = c :: cs)
    (hother : other.Linked ok' (forces (c :: cs)))
    (hquiet : c.byte = SERMUX_FORCE_SID_CHAR → Quiet other.out other.sending)
    (hrange : ∀ s, ok' s → (SERMUX_SERVICE_ID_FIRST ≤ s && s ≤ SERMUX_SERVICE_ID_LAST) = true) :
    Taken ok ok' d other c cs := by
  have hrec := hd.receive hline
  have hwf := hd.wellFormed
  rw [hline] at hwf
  -- the other direction owes one answer less only when the byte is a request
  have hcount : c.byte ≠ SERMUX_FORCE_SID_CHAR → forces (c :: cs) = forces cs := by
    intro hne
    unfold forces
    rw [List.countP_cons_of_neg]
    simpa using hne
  simp only [WellFormed] at hwf
  unfold Dir.receive Dir.asks at hrec
  rcases symbol_cases c.byte with ⟨hb, hs⟩ | ⟨hid, hs⟩ | ⟨hb, hs⟩ | ⟨hc, hs⟩
  · simp only [hs] at hrec
    have hne : c.byte ≠ SERMUX_FORCE_SID_CHAR := by
      rw [hb]
      decide
    exact .escape hb hrec (hcount hne ▸ hother)
  · simp only [hs] at hrec hwf
    have hne : c.byte ≠ SERMUX_FORCE_SID_CHAR := by
      intro hb
      rw [hb] at hid
      exact absurd hid (by decide)
    exact .service hwf.2.1 hrec (hcount hne ▸ hother)
  · simp only [hs] at hrec
    have hone : forces (c :: cs) = forces cs + 1 := by
      unfold forces
      rw [List.countP_cons_of_pos]
      simpa using hb
    rw [hone] at hother
    obtain ⟨s, data, hout, hlast, hans⟩ := hother.answer (hquiet hb) hrange
    have hkeep : forces (other.answer s (sentAs data)).line = forces other.line := by
      refine forces_append_cells (fun b hb => ?_) _ _
      rcases List.mem_cons.mp hb with rfl | hb
      · intro heq
        have hid := hrange b (hother.service_ok b (.inl hout))
        rw [heq] at hid
        exact absurd hid (by decide)
      · exact ne_force_of_mem_bytes hb
    exact .force hb s data hout hlast (hkeep ▸ hrec) hans
  · simp only [hs] at hrec hwf
    have hthat := hcount (ne_force hc) ▸ hother
    cases hcur : d.cur with
    | none =>
        have hkeep : forces other.request.line = forces other.line + 1 := forces_append _ _
        simp only [hcur, if_true, List.append_nil] at hrec
        refine .lost hc hwf.1 hcur ?_ hthat.request
        rw [hkeep, hcur]
        exact hrec
    | some s =>
        simp only [hcur, reduceCtorEq, if_false, Nat.add_zero] at hrec
        refine .data hc hwf.1 s hcur (hd.cur_ok s hcur) ?_ hthat
        rw [hcur]
        exact hrec

/-! ## One step -/

section Step

variable {numVuart : Nat} {cfg : MuxConfig} {s s' : System}

theorem KnownId.range (hn : numVuart ≤ SERMUX_SERVICE_MAX) {id : UInt8}
    (h : KnownId numVuart cfg id) :
    (SERMUX_SERVICE_ID_FIRST ≤ id && id ≤ SERMUX_SERVICE_ID_LAST) = true :=
  serviceId_of_isVuart hn h.1

theorem inv_uartSend (hn : numVuart ≤ SERMUX_SERVICE_MAX) (h : Inv numVuart cfg s)
    {id data : UInt8} (hid : KnownId numVuart cfg id)
    (hok : StepOk s (.uartSend id data))
    (hstep : step numVuart cfg s (.uartSend id data) = some s') : Inv numVuart cfg s' := by
  obtain ⟨hrun, hforce, ⟨got, hgot, hmux⟩, huart⟩ := h
  simp only [step] at hstep
  by_cases hidle : s.sending = none ∧ isVuart numVuart id = true
  · rw [if_pos hidle, Option.some.injEq] at hstep
    subst hstep
    refine ⟨hrun, hforce, ⟨got, hgot, hmux.start hidle.1 hid (hid.range hn) hok data⟩, ?_⟩
    have hkeep : forces (s.toMux ++ cells true (sendStart s.uart id data).2) =
        forces s.toMux := by
      refine forces_append_cells (fun b hb => ?_) _ _
      have hmem : b ∈ messageBytes s.uart.serviceIdOut id data := List.mem_append_left _ hb
      exact ne_force_of_mem_messageBytes (isVuart_ne_force hn hid.1) hmem
    simp only [hkeep]
    exact huart
  · rw [if_neg hidle] at hstep
    cases hstep

/-- A statement of a send, on the direction towards the mux. -/
theorem muxDir_advance (s : System) (p : Sending) (got : List (UInt8 × UInt8)) :
    (s.muxDir got).advance p =
      ⟨s.mux.serviceIdIn, s.mux.gotEsc, (sendStep s.uart p).1.serviceIdOut,
        (sendStep s.uart p).1.lastSent, p.emits || s.uartFresh, (sendStep s.uart p).2.1,
        s.toMux ++ cells true (sendStep s.uart p).2.2,
        if p.emits then s.sentToMux ++ [(p.id, p.data)] else s.sentToMux, got⟩ := by
  obtain ⟨point, id, data⟩ := p
  cases point with
  | setLast => simp [Dir.advance, System.muxDir, sendStep, Sending.emits, cells]
  | emitData =>
      by_cases hneeds : needsEscape data = true
      · simp [Dir.advance, System.muxDir, sendStep, Sending.emits, cells, hneeds]
      · simp [Dir.advance, System.muxDir, sendStep, Sending.emits, cells, hneeds]
  | emitEscaped => simp [Dir.advance, System.muxDir, sendStep, Sending.emits, cells]
  | setLastEscaped => simp [Dir.advance, System.muxDir, sendStep, Sending.emits, cells]
  | setOut => simp [Dir.advance, System.muxDir, sendStep, Sending.emits, cells]

/-- A send emits no request, and does not touch what the interrupt uses. -/
theorem sendStep_frame {u : Uart} {p : Sending}
    (hlast : p.point = .emitEscaped → needsEscape p.data = true) :
    (∀ b ∈ (sendStep u p).2.2, b ≠ SERMUX_FORCE_SID_CHAR) ∧
      (sendStep u p).1.serviceIdIn = u.serviceIdIn ∧ (sendStep u p).1.gotEsc = u.gotEsc := by
  obtain ⟨point, id, data⟩ := p
  cases point with
  | setLast => exact ⟨(by intro b hb; cases hb), rfl, rfl⟩
  | emitData =>
      simp only [sendStep]
      by_cases hneeds : needsEscape data = true
      · rw [if_pos hneeds]
        refine ⟨fun b hb => ?_, rfl, rfl⟩
        rw [List.mem_singleton.mp hb]
        exact Ne.symm (by decide)
      · rw [if_neg hneeds]
        refine ⟨fun b hb => ?_, rfl, rfl⟩
        rw [List.mem_singleton.mp hb]
        exact ne_force (Bool.eq_false_iff.mpr hneeds)
  | emitEscaped =>
      refine ⟨fun b hb => ?_, rfl, rfl⟩
      rw [List.mem_singleton.mp hb]
      exact ne_force (needsEscape_xor (hlast rfl))
  | setLastEscaped => exact ⟨(by intro b hb; cases hb), rfl, rfl⟩
  | setOut => exact ⟨(by intro b hb; cases hb), rfl, rfl⟩

theorem inv_uartResume (h : Inv numVuart cfg s) (hok : StepOk s .uartResume)
    (hstep : step numVuart cfg s .uartResume = some s') : Inv numVuart cfg s' := by
  obtain ⟨hrun, hforce, ⟨got, hgot, hmux⟩, huart⟩ := h
  simp only [step] at hstep
  cases hs : s.sending with
  | none =>
      rw [hs] at hstep
      cases hstep
  | some p =>
      rw [hs] at hstep
      simp only [Option.some.injEq] at hstep
      subst hstep
      have hadv := hmux.advance hs fun hp => hok ⟨p, hs, hp⟩
      have hneeds : p.point = .emitEscaped → needsEscape p.data = true := by
        intro hp
        have hlast := hmux.last_ok
        obtain ⟨point, id, data⟩ := p
        simp only at hp
        subst hp
        simp only [Dir.LastOk, System.muxDir, hs] at hlast
        exact hlast.2
      obtain ⟨hbytes, hin, hesc⟩ := sendStep_frame (u := s.uart) hneeds
      rw [muxDir_advance] at hadv
      refine ⟨hrun, hforce, ⟨got, hgot, hadv⟩, ?_⟩
      simp only [System.uartDir, forces_append_cells hbytes, hin, hesc]
      exact huart

theorem inv_uartReceive (hn : numVuart ≤ SERMUX_SERVICE_MAX) (h : Inv numVuart cfg s)
    (hok : StepOk s .uartReceive)
    (hstep : step numVuart cfg s .uartReceive = some s') : Inv numVuart cfg s' := by
  obtain ⟨hrun, hforce, ⟨got, hgot, hmux⟩, huart⟩ := h
  simp only [step] at hstep
  cases hline : s.toUart with
  | nil =>
      rw [hline] at hstep
      cases hstep
  | cons c cs =>
      rw [hline] at hstep hmux
      simp only [Option.some.injEq] at hstep
      subst hstep
      cases taken huart hline hmux (fun hb => hok ⟨c, by rw [hline]; rfl, hb⟩) fun s hs => hs.range hn with
      | escape byte this that =>
          simp only [byte, cmnRxHandler_escape]
          refine ⟨hrun, ?_, ⟨got, hgot, ?_⟩, ?_⟩
          · simpa using hforce
          · simpa [System.muxDir, cells] using that
          · simpa [System.uartDir, System.muxDir, cells] using this
      | service byte this that =>
          simp only [cmnRxHandler_service hn byte]
          refine ⟨hrun, ?_, ⟨got, hgot, ?_⟩, ?_⟩
          · simpa using hforce
          · simpa [System.muxDir, cells] using that
          · simpa [System.uartDir, System.muxDir, cells] using this
      | force byte sid data out last this that =>
          have hlast : s.uart.lastSent = some (sentAs data) := last
          have hout : s.uart.serviceIdOut = some sid := out
          simp only [byte, cmnRxHandler_force hn hlast, hout, sidByte]
          refine ⟨hrun, ?_, ⟨got, hgot, ?_⟩, ?_⟩
          · simpa using hforce
          · simpa [System.muxDir, Dir.answer, hout] using that
          · simpa [System.uartDir, System.muxDir, Dir.answer] using this
      | lost byte escaped cur this that =>
          have hcur : s.uart.serviceIdIn = none := cur
          simp only [cmnRxHandler_char hn byte, hcur]
          refine ⟨hrun, ?_, ⟨got, hgot, ?_⟩, ?_⟩
          · simpa using hforce
          · exact that
          · simpa [System.uartDir, System.muxDir, Dir.request, hcur] using this
      | data byte escaped sid cur known this that =>
          have hcur : s.uart.serviceIdIn = some sid := cur
          simp only [cmnRxHandler_char hn byte, hcur]
          refine ⟨hrun, ?_, ⟨got, hgot, ?_⟩, ?_⟩
          · simpa [ne_force byte] using hforce
          · simpa [System.muxDir, cells] using that
          · simpa [System.uartDir, System.muxDir, hcur, cells] using this

theorem inv_muxSend (hn : numVuart ≤ SERMUX_SERVICE_MAX) (h : Inv numVuart cfg s)
    {service : MuxService} {c : UInt8} (hservice : Configured numVuart cfg service)
    (hok : StepOk s (.muxSend service c))
    (hstep : step numVuart cfg s (.muxSend service c) = some s') : Inv numVuart cfg s' := by
  obtain ⟨hrun, hforce, ⟨got, hgot, hmux⟩, huart⟩ := h
  simp only [step, if_pos hrun, Option.some.injEq] at hstep
  subst hstep
  have hid := hservice.vuart
  have hkeep : forces (s.toUart ++ cells true (muxSend cfg s.mux service c).2) =
      forces s.toUart := by
    refine forces_append_cells (fun b hb => ?_) _ _
    exact ne_force_of_mem_messageBytes (isVuart_ne_force hn hid) hb
  refine ⟨hrun, hforce, ⟨got, hgot, ?_⟩, ?_⟩
  · simp only [hkeep]
    exact hmux
  · exact huart.send rfl hid (serviceId_of_isVuart hn hid) hok c

theorem inv_muxReceive (hn : numVuart ≤ SERMUX_SERVICE_MAX) (h : Inv numVuart cfg s)
    (hstep : step numVuart cfg s .muxReceive = some s') : Inv numVuart cfg s' := by
  obtain ⟨hrun, hforce, ⟨got, hgot, hmux⟩, huart⟩ := h
  simp only [step, hrun] at hstep
  cases hline : s.toMux with
  | nil =>
      rw [hline] at hstep
      cases hstep
  | cons c cs =>
      rw [hline] at hstep huart
      simp only at hstep
      cases taken hmux hline huart (fun _ => trivial) fun s => serviceId_of_isVuart hn with
      | escape byte this that =>
          simp only [byte, muxReceive_escape, Option.some.injEq] at hstep
          subst hstep
          refine ⟨rfl, ?_, ⟨got, ?_, ?_⟩, ?_⟩
          · simpa using hforce
          · simpa using hgot
          · simpa [System.uartDir, System.muxDir, cells] using this
          · simpa [System.uartDir, System.muxDir, cells] using that
      | service byte this that =>
          simp only [muxReceive_service (byte.range hn), Option.some.injEq] at hstep
          subst hstep
          refine ⟨rfl, ?_, ⟨got, ?_, ?_⟩, ?_⟩
          · simpa using hforce
          · simpa using hgot
          · simpa [System.uartDir, System.muxDir, cells] using this
          · simpa [System.uartDir, System.muxDir, cells] using that
      | force byte sid data out last this that =>
          have hlast : s.mux.prevSent = some (sentAs data) := last
          have hout : s.mux.serviceIdOut = some sid := out
          simp only [byte, muxReceive_force hlast, hout, sidByte, Option.some.injEq] at hstep
          subst hstep
          refine ⟨rfl, ?_, ⟨got, ?_, ?_⟩, ?_⟩
          · simpa using hforce
          · simpa using hgot
          · simpa [System.uartDir, System.muxDir, Dir.answer] using this
          · simpa [System.uartDir, System.muxDir, Dir.answer, hout] using that
      | lost byte escaped cur this that =>
          have hcur : s.mux.serviceIdIn = none := cur
          simp only [muxReceive_char byte escaped, hcur, Option.some.injEq] at hstep
          subst hstep
          refine ⟨rfl, ?_, ⟨got, ?_, ?_⟩, ?_⟩
          · simpa using hforce
          · simpa using hgot
          · simpa [System.uartDir, System.muxDir, Dir.request, hcur] using this
          · exact that
      | data byte escaped sid cur known this that =>
          have hcur : s.mux.serviceIdIn = some sid := cur
          obtain ⟨service, hservice⟩ := Option.isSome_iff_exists.mp known.2
          simp only [muxReceive_char byte escaped, hcur, hservice, Option.some.injEq] at hstep
          subst hstep
          refine ⟨rfl, ?_, ⟨got ++ if c.fresh then [(sid, unescape s.mux.gotEsc c.byte)] else [],
            ?_, ?_⟩, ?_⟩
          · simpa [ne_force byte] using hforce
          · unfold MuxConfig.routed at hgot ⊢
            rw [List.map_append, List.map_append, hgot]
            cases c.fresh with
            | false => rfl
            | true => simp [hservice]
          · simpa [System.uartDir, System.muxDir, hcur, cells] using this
          · simpa [System.uartDir, System.muxDir, cells] using that

theorem inv_restartUart (h : Inv numVuart cfg s) (hok : StepOk s .restartUart)
    (hstep : step numVuart cfg s .restartUart = some s') : Inv numVuart cfg s' := by
  obtain ⟨hrun, hforce, ⟨got, hgot, hmux⟩, huart⟩ := h
  simp only [step, Option.some.injEq] at hstep
  subst hstep
  obtain ⟨hinto, hzero, hesc⟩ := hok
  refine ⟨hrun, hforce, ⟨got, hgot, ?_⟩, huart.restartReceiver ?_⟩
  · have hrest := hmux.restartSender hzero hesc
    simp only [forces_stale]
    exact hrest
  · simp only [Dir.requests, Dir.restartReceiver, System.uartDir, unlabelled_stale]
    rcases hinto with hnone | ⟨hone, hprev⟩
    · exact .inl hnone
    · refine .inr ⟨hone, ?_⟩
      have hlast := huart.last_ok
      obtain ⟨l, hl⟩ := Option.ne_none_iff_exists'.mp hprev
      obtain ⟨-, hout⟩ := hlast l hl
      obtain ⟨sid, hsid⟩ := Option.ne_none_iff_exists'.mp hout
      have hsid : s.mux.serviceIdOut = some sid := hsid
      simp [resend, hsid, hl]

theorem inv_restartMux (h : Inv numVuart cfg s) (hok : StepOk s .restartMux)
    (hstep : step numVuart cfg s .restartMux = some s') : Inv numVuart cfg s' := by
  obtain ⟨hrun, hforce, ⟨got, hgot, hmux⟩, huart⟩ := h
  simp only [step, Option.some.injEq] at hstep
  subst hstep
  obtain ⟨hinto, hzero⟩ := hok
  have hidle : ¬ s.uartDir.InEscape := by
    rintro ⟨id, data, hi⟩
    cases hi
  have hesc : finalEsc s.uartDir.esc s.uartDir.line = false := by
    by_contra hesc
    exact hidle (huart.tail (Bool.eq_true_of_not_eq_false hesc))
  refine ⟨rfl, hforce, ⟨[], rfl, ?_⟩, ?_⟩
  · refine hmux.restartReceiver ?_
    simp only [Dir.requests, Dir.restartReceiver, System.muxDir, unlabelled_stale]
    exact hinto
  · have hrest := huart.restartSender hzero hesc
    simp only [forces_stale]
    exact hrest

theorem inv_step (hn : numVuart ≤ SERMUX_SERVICE_MAX) {a : Action} (h : Inv numVuart cfg s)
    (hok : Known numVuart cfg a ∧ StepOk s a) (hstep : step numVuart cfg s a = some s') :
    Inv numVuart cfg s' := by
  obtain ⟨hknown, hok⟩ := hok
  cases a with
  | uartSend id data => exact inv_uartSend hn h hknown hok hstep
  | uartResume => exact inv_uartResume h hok hstep
  | uartReceive => exact inv_uartReceive hn h hok hstep
  | muxSend service c => exact inv_muxSend hn h hknown hok hstep
  | muxReceive => exact inv_muxReceive hn h hstep
  | restartUart => exact inv_restartUart h hok hstep
  | restartMux => exact inv_restartMux h hok hstep

end Step

/-! ## Runs -/

/-- **Resynchronisation.**  In every run, with any number of restarts, whose
sends are for services that both ends know and whose steps the one-byte memory
is enough for, the request character is never taken for data, the mux never
stops, and each side receives exactly what the other one sent since its own
last restart, in order and for the right services. -/
theorem sermux_resynchronises {numVuart : Nat} {cfg : MuxConfig}
    (hn : numVuart ≤ SERMUX_SERVICE_MAX) {as : List Action} {s : System}
    (hok : Transition.Conforming (step numVuart cfg)
      (fun s a => Known numVuart cfg a ∧ StepOk s a) System.init as)
    (hrun : Transition.run (step numVuart cfg) System.init as = some s) :
    Resynchronised cfg s :=
  (Transition.invariant_of_run (fun _ _ _ => inv_step hn) (inv_init numVuart cfg)
    hok hrun).resynchronised

/-- A restart of the mux after which the byte in flight is asked for, got again,
and followed by further bytes in both directions. -/
theorem sermux_resynchronises_after_restart :
    Resynchronised ⟨false, 1⟩
      { System.init with
        uart := ⟨some 0xD0, some 0xD0, false, none⟩
        mux := ⟨some 0xD0, some 0xD0, false, some ⟨true, 0xE0⟩⟩
        muxFresh := true
        uartFresh := true
        sentToMux := [(0xD0, 0x62)]
        gotAtMux := [(.port 0, 0x62)]
        sentToUart := [(0xD0, 0xC0)]
        gotAtUart := [(0xD0, 0xC0)] } :=
  @sermux_resynchronises 1 ⟨false, 1⟩ (by decide)
    [.uartSend 0xD0 0x61, .uartResume, .uartResume, .uartResume, .muxReceive, .muxReceive,
      .restartMux, .uartSend 0xD0 0x62, .uartResume, .uartResume, .uartResume, .muxReceive,
      .uartReceive, .muxReceive, .muxReceive, .muxSend (.port 0) 0xC0, .uartReceive,
      .uartReceive, .uartReceive]
    _ (by decide) (by decide)

/-- After a restart of the mux two bytes are in flight without a service id:
the second request finds no last byte, and is taken for data. -/
theorem sermux_not_resynchronised :
    ¬ ∀ (numVuart : Nat) (cfg : MuxConfig), numVuart ≤ SERMUX_SERVICE_MAX →
      ∀ (as : List Action) (s : System), (∀ a ∈ as, Known numVuart cfg a) →
        Transition.run (step numVuart cfg) System.init as = some s → Resynchronised cfg s := by
  intro h
  have hrun := h 1 ⟨false, 1⟩ (by decide)
    [.muxSend (.port 0) 0x41, .uartReceive, .uartReceive, .uartSend 0xD0 0x61, .uartResume,
      .uartResume, .uartResume, .muxReceive, .restartMux, .uartSend 0xD0 0x62, .uartResume,
      .uartResume, .uartResume, .muxReceive, .muxReceive, .uartReceive, .uartReceive]
    _ (by decide) rfl
  exact absurd hrun.noForce (by decide)

end Sermux
