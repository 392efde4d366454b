import EluaWebServer.Sermux.Line

/-!
# The multiplexer round trip

Both receivers follow the reading of the line that `pending` gives, as long
as no character arrives before a service id and no request to send again is
on the line.  What either sender puts on the line, from the initial state, is
such a line and reads as the bytes that were sent.  So each service receives
exactly the bytes sent for it, in both directions (`sermux_round_trip`).
-/

namespace Sermux

/-! ## One received byte -/

section Receive

variable {numVuart : Nat} {u : Uart} {cfg : MuxConfig} {m : Mux}

theorem cmnRxHandler_escape :
    cmnRxHandler numVuart u SERMUX_ESCAPE_CHAR = ({ u with gotEsc := true }, ⟨[], []⟩) := by
  rw [cmnRxHandler, if_neg (not_not.mpr rfl)]

theorem cmnRxHandler_service (hn : numVuart ≤ SERMUX_SERVICE_MAX) {s : UInt8}
    (hs : isVuart numVuart s = true) :
    cmnRxHandler numVuart u s = ({ u with serviceIdIn := some s }, ⟨[], []⟩) := by
  rw [cmnRxHandler, if_pos (isVuart_ne_escape hn hs), if_pos hs]

theorem cmnRxHandler_force (hn : numVuart ≤ SERMUX_SERVICE_MAX) {last : LastSent}
    (hlast : u.lastSent = some last) :
    cmnRxHandler numVuart u SERMUX_FORCE_SID_CHAR =
      ({ u with lastSent := none }, ⟨sidByte u.serviceIdOut :: last.bytes, []⟩) := by
  have hv : isVuart numVuart SERMUX_FORCE_SID_CHAR ≠ true := fun h =>
    isVuart_ne_force hn h rfl
  rw [cmnRxHandler, if_pos (by decide), if_neg hv, if_pos rfl, hlast]

theorem cmnRxHandler_char (hn : numVuart ≤ SERMUX_SERVICE_MAX) {c : UInt8}
    (hc : needsEscape c = false) :
    cmnRxHandler numVuart u c =
      ({ u with gotEsc := false },
        match u.serviceIdIn with
        | none => ⟨[SERMUX_FORCE_SID_CHAR], []⟩
        | some s => ⟨[], [(s, unescape u.gotEsc c)]⟩) := by
  rw [cmnRxHandler, if_pos (ne_escape hc), not_isVuart hn hc, if_neg Bool.false_ne_true,
    if_neg (ne_force hc)]
  cases u.serviceIdIn with
  | none => rfl
  | some s => rfl

theorem muxReceive_escape :
    muxReceive cfg m SERMUX_ESCAPE_CHAR = .ok ({ m with gotEsc := true }, ⟨[], []⟩) := by
  rw [muxReceive, if_neg (not_not.mpr rfl)]

theorem muxReceive_service {s : UInt8}
    (hs : (SERMUX_SERVICE_ID_FIRST ≤ s && s ≤ SERMUX_SERVICE_ID_LAST) = true) :
    muxReceive cfg m s = .ok ({ m with serviceIdIn := some s }, ⟨[], []⟩) := by
  have hne : s ≠ SERMUX_ESCAPE_CHAR := by
    rintro rfl
    exact absurd hs (by decide)
  rw [muxReceive, if_pos hne, if_pos hs]

theorem muxReceive_force {last : LastSent} (hlast : m.prevSent = some last) :
    muxReceive cfg m SERMUX_FORCE_SID_CHAR =
      .ok ({ m with prevSent := none }, ⟨sidByte m.serviceIdOut :: last.bytes, []⟩) := by
  rw [muxReceive, if_pos (by decide), if_neg (by decide), if_pos rfl, hlast]

/-- A character that is escaped when it should be is passed on to the current
service; without one the mux asks for it. -/
theorem muxReceive_char {c : UInt8} (hc : needsEscape c = false)
    (hesc : m.gotEsc = true → needsEscape (unescape true c) = true) :
    muxReceive cfg m c =
      match m.serviceIdIn with
      | none => .ok ({ m with gotEsc := false }, ⟨[SERMUX_FORCE_SID_CHAR], []⟩)
      | some s =>
          match cfg.service? s with
          | none => .error .serviceIndex
          | some service =>
              .ok ({ m with gotEsc := false }, ⟨[], [(service, unescape m.gotEsc c)]⟩) := by
  have hvalid : (m.gotEsc && !needsEscape (if m.gotEsc then c ^^^ SERMUX_ESCAPE_XOR_MASK else c))
      = false := by
    cases hg : m.gotEsc with
    | false => rfl
    | true =>
        have hneeds : needsEscape (c ^^^ SERMUX_ESCAPE_XOR_MASK) = true := hesc hg
        simp only [if_true, hneeds, Bool.not_true, Bool.and_false]
  rw [muxReceive, if_pos (ne_escape hc), not_serviceId hc, if_neg Bool.false_ne_true,
    if_neg (ne_force hc)]
  simp only [hvalid, Bool.false_eq_true, if_false]
  cases m.serviceIdIn with
  | none => rfl
  | some s =>
      simp only
      cases cfg.service? s <;> rfl

end Receive

/-! ## What is sent -/

/-- The bytes of several messages. -/
def messages (out : Option UInt8) : List (UInt8 × UInt8) → List UInt8
  | [] => []
  | (id, data) :: msgs => messageBytes out id data ++ messages (some id) msgs

theorem platformUartSendAll_eq (u : Uart) (msgs : List (UInt8 × UInt8)) :
    (platformUartSendAll u msgs).2 = messages u.serviceIdOut msgs := by
  induction msgs generalizing u with
  | nil => rfl
  | cons msg msgs ih =>
      obtain ⟨id, data⟩ := msg
      simp only [platformUartSendAll, messages, ih]
      rfl

theorem muxSendAll_eq (cfg : MuxConfig) (m : Mux) (msgs : List (MuxService × UInt8)) :
    (muxSendAll cfg m msgs).2 =
      messages m.serviceIdOut (msgs.map fun msg => (cfg.serviceId msg.1, msg.2)) := by
  induction msgs generalizing m with
  | nil => rfl
  | cons msg msgs ih =>
      obtain ⟨service, c⟩ := msg
      simp only [muxSendAll, List.map_cons, messages, ih]
      rfl

/-- The line of several messages, read by a receiver whose service is that of
the last message before them. -/
structure Reads (ok : UInt8 → Prop) (cur : Option UInt8) (line : Line)
    (msgs : List (UInt8 × UInt8)) : Prop where
  pending : pending cur false line = msgs
  labelled : unlabelled cur line = 0
  wellFormed : WellFormed ok false line
  noForce : forces line = 0

theorem reads_messages {ok : UInt8 → Prop}
    (hok : ∀ s, ok s → (SERMUX_SERVICE_ID_FIRST ≤ s && s ≤ SERMUX_SERVICE_ID_LAST) = true)
    {msgs : List (UInt8 × UInt8)} (hmsgs : ∀ msg ∈ msgs, ok msg.1) (out : Option UInt8) :
    Reads ok out (cells true (messages out msgs)) msgs := by
  induction msgs generalizing out with
  | nil => exact ⟨rfl, rfl, trivial, rfl⟩
  | cons msg msgs ih =>
      obtain ⟨id, data⟩ := msg
      have hid : ok id := hmsgs (id, data) List.mem_cons_self
      have hsym := symbol_service (hok id hid)
      have hneforce : id ≠ SERMUX_FORCE_SID_CHAR := by
        rintro rfl
        exact absurd (hok _ hid) (by decide)
      have hrest := ih (fun msg h => hmsgs msg (List.mem_cons_of_mem _ h)) (some id)
      obtain ⟨hpend, hfinal, hesc, hwf⟩ := line_sentAs true data
      -- the message read by a receiver whose service is `id` already
      have hone : Reads ok (some id)
          (cells true ((sentAs data).bytes ++ messages (some id) msgs)) ((id, data) :: msgs) := by
        unfold cells at hpend hfinal hesc hwf hrest ⊢
        rw [List.map_append]
        refine ⟨?_, unlabelled_some _ _, ?_, ?_⟩
        · rw [pending_append, hpend, hfinal, hesc, hrest.pending]
          rfl
        · rw [wellFormed_append, hesc]
          exact ⟨hwf _, hrest.wellFormed⟩
        · rw [forces_append, hrest.noForce]
          exact forces_sentAs true data
      simp only [messages, messageBytes]
      by_cases hout : out = some id
      · subst hout
        rw [if_neg (not_not.mpr rfl)]
        exact hone
      · rw [if_pos hout]
        refine ⟨?_, ?_, ?_, ?_⟩
        · simp only [List.cons_append, cells, List.map_cons,
            Sermux.pending, hsym]
          exact hone.pending
        · simp only [List.cons_append, cells, List.map_cons,
            unlabelled, hsym]
          exact hone.labelled
        · simp only [List.cons_append, cells, List.map_cons,
            WellFormed, hsym]
          exact ⟨trivial, hid, hone.wellFormed⟩
        · simp only [List.cons_append, cells, List.map_cons, forces,
            List.countP_cons, decide_eq_true_eq, hneforce, if_false]
          exact hone.noForce

/-! ## What is received -/

/-- The virtual UARTs receive what the line reads as. -/
theorem cmnRxHandlerAll_eq {numVuart : Nat} (hn : numVuart ≤ SERMUX_SERVICE_MAX)
    {bytes : List UInt8} {u : Uart}
    (hwf : WellFormed (isVuart numVuart · = true) u.gotEsc (cells true bytes))
    (hlab : unlabelled u.serviceIdIn (cells true bytes) = 0)
    (hforce : forces (cells true bytes) = 0) :
    ∃ u', cmnRxHandlerAll numVuart u bytes =
      (u', ⟨[], pending u.serviceIdIn u.gotEsc (cells true bytes)⟩) := by
  induction bytes generalizing u with
  | nil => exact ⟨u, rfl⟩
  | cons b bytes ih =>
      obtain ⟨cur, out, esc, last⟩ := u
      simp only [cells, List.map_cons, WellFormed, unlabelled, forces, List.countP_cons,
        pending] at hwf hlab hforce ih ⊢
      rcases symbol_cases b with ⟨rfl, hs⟩ | ⟨hid, hs⟩ | ⟨rfl, hs⟩ | ⟨hc, hs⟩
      · simp only [hs] at hwf hlab ⊢
        obtain ⟨u', hu⟩ := @ih ⟨cur, out, true, last⟩ hwf.2 hlab (by omega)
        refine ⟨u', ?_⟩
        simp only [cmnRxHandlerAll, cmnRxHandler_escape, hu, List.nil_append]
      · simp only [hs] at hwf hlab ⊢
        obtain ⟨rfl, hv, hwf⟩ := hwf
        obtain ⟨u', hu⟩ := @ih ⟨some b, out, false, last⟩ hwf hlab (by omega)
        refine ⟨u', ?_⟩
        simp only [cmnRxHandlerAll, cmnRxHandler_service hn hv, hu, List.nil_append]
      · simp at hforce
      · simp only [hs] at hwf hlab ⊢
        cases cur with
        | none => simp at hlab
        | some s =>
            obtain ⟨u', hu⟩ := @ih ⟨some s, out, false, last⟩ hwf.2 (by simpa using hlab)
              (by omega)
            refine ⟨u', ?_⟩
            simp only [cmnRxHandlerAll, cmnRxHandler_char hn hc, hu, List.nil_append, if_true]

theorem muxReceiveAll_cons {cfg : MuxConfig} {m m₁ m₂ : Mux} {c : UInt8} {bytes : List UInt8}
    {e r : Effect MuxService} (h₁ : muxReceive cfg m c = .ok (m₁, e))
    (h₂ : muxReceiveAll cfg m₁ bytes = .ok (m₂, r)) :
    muxReceiveAll cfg m (c :: bytes) =
      .ok (m₂, ⟨e.sent ++ r.sent, e.delivered ++ r.delivered⟩) := by
  rw [muxReceiveAll, h₁]
  show (muxReceiveAll cfg m₁ bytes >>= fun x =>
    pure (x.1, (⟨e.sent ++ x.2.sent, e.delivered ++ x.2.delivered⟩ : Effect MuxService))) = _
  rw [h₂]
  rfl

/-- The services of the mux receive what the line reads as. -/
theorem muxReceiveAll_eq {cfg : MuxConfig} {service : UInt8 → MuxService} {ok : UInt8 → Prop}
    (hok : ∀ s, ok s → cfg.service? s = some (service s)) {bytes : List UInt8} {m : Mux}
    (hcur : ∀ s, m.serviceIdIn = some s → ok s)
    (hwf : WellFormed ok m.gotEsc (cells true bytes))
    (hlab : unlabelled m.serviceIdIn (cells true bytes) = 0)
    (hforce : forces (cells true bytes) = 0) :
    ∃ m', muxReceiveAll cfg m bytes =
      .ok (m', ⟨[], (pending m.serviceIdIn m.gotEsc (cells true bytes)).map
        fun msg => (service msg.1, msg.2)⟩) := by
  induction bytes generalizing m with
  | nil => exact ⟨m, rfl⟩
  | cons b bytes ih =>
      obtain ⟨cur, out, esc, last⟩ := m
      simp only [cells, List.map_cons, WellFormed, unlabelled, forces, List.countP_cons,
        pending] at hcur hwf hlab hforce ih ⊢
      rcases symbol_cases b with ⟨rfl, hs⟩ | ⟨hid, hs⟩ | ⟨rfl, hs⟩ | ⟨hc, hs⟩
      · simp only [hs] at hwf hlab ⊢
        obtain ⟨m', hm⟩ := @ih ⟨cur, out, true, last⟩ hcur hwf.2 hlab (by omega)
        have hescape : muxReceive cfg ⟨cur, out, esc, last⟩ SERMUX_ESCAPE_CHAR = _ :=
          muxReceive_escape
        exact ⟨m', muxReceiveAll_cons hescape hm⟩
      · simp only [hs] at hwf hlab ⊢
        obtain ⟨rfl, hv, hwf⟩ := hwf
        have hcur' : ∀ s, some b = some s → ok s := by
          intro s h
          exact Option.some.inj h ▸ hv
        obtain ⟨m', hm⟩ := @ih ⟨some b, out, false, last⟩ hcur' hwf hlab (by omega)
        have hservice : muxReceive cfg ⟨cur, out, false, last⟩ b = _ := muxReceive_service hid
        exact ⟨m', muxReceiveAll_cons hservice hm⟩
      · simp at hforce
      · simp only [hs] at hwf hlab ⊢
        cases cur with
        | none => simp at hlab
        | some s =>
            obtain ⟨m', hm⟩ := @ih ⟨some s, out, false, last⟩ hcur hwf.2 (by simpa using hlab)
              (by omega)
            have hchar : muxReceive cfg ⟨some s, out, esc, last⟩ b =
                .ok (⟨some s, out, false, last⟩, ⟨[], [(service s, unescape esc b)]⟩) := by
              rw [muxReceive_char hc hwf.1]
              simp only [hok s (hcur s rfl)]
            exact ⟨m', muxReceiveAll_cons hchar hm⟩

/-! ## The round trip -/

/-- A service that is in use on both ends: its id is that of a virtual UART,
and the mux finds it under this id. -/
structure Configured (numVuart : Nat) (cfg : MuxConfig) (service : MuxService) : Prop where
  vuart : isVuart numVuart (cfg.serviceId service) = true
  service : cfg.service? (cfg.serviceId service) = some service

/-- The bytes for one service among those for all services. -/
def bytesFor {Service : Type} [DecidableEq Service] (s : Service)
    (msgs : List (Service × UInt8)) : List UInt8 :=
  (msgs.filter (·.1 = s)).map (·.2)

/-- The messages with the ids of their services. -/
def MuxConfig.withIds (cfg : MuxConfig) (msgs : List (MuxService × UInt8)) :
    List (UInt8 × UInt8) :=
  msgs.map fun msg => (cfg.serviceId msg.1, msg.2)

/-- Configured services have different ids, so the bytes under an id are those
of the service. -/
theorem bytesFor_withIds {numVuart : Nat} {cfg : MuxConfig}
    {msgs : List (MuxService × UInt8)}
    (hmsgs : ∀ msg ∈ msgs, Configured numVuart cfg msg.1) {service : MuxService}
    (hservice : Configured numVuart cfg service) :
    bytesFor (cfg.serviceId service) (cfg.withIds msgs) = bytesFor service msgs := by
  unfold bytesFor MuxConfig.withIds
  rw [List.filter_map, List.map_map]
  have hsame : msgs.filter ((fun msg : UInt8 × UInt8 => decide (msg.1 = cfg.serviceId service)) ∘
      fun msg => (cfg.serviceId msg.1, msg.2)) = msgs.filter (·.1 = service) := by
    refine List.filter_congr fun msg hmsg => ?_
    have hiff : cfg.serviceId msg.1 = cfg.serviceId service ↔ msg.1 = service := by
      constructor
      · intro h
        have h₁ := (hmsgs msg hmsg).service
        rw [h, hservice.service] at h₁
        exact (Option.some.inj h₁).symm
      · intro h
        rw [h]
    simp only [Function.comp_apply, hiff]
  rw [hsame]
  rfl

/-- **Multiplexer round trip.**  For every sequence of bytes for services that
both ends know, sent from the initial state, the other side asks for nothing
to be sent again and delivers to each service exactly the bytes sent for it,
in order: what `platform_uart_send` sends to the services of the mux, and what
the mux sends to the virtual UARTs. -/
theorem sermux_round_trip {numVuart : Nat} {cfg : MuxConfig}
    (hn : numVuart ≤ SERMUX_SERVICE_MAX) {msgs : List (MuxService × UInt8)}
    (hmsgs : ∀ msg ∈ msgs, Configured numVuart cfg msg.1) :
    (∃ m toServices,
      muxReceiveAll cfg Mux.init (platformUartSendAll Uart.init (cfg.withIds msgs)).2 =
        .ok (m, ⟨[], toServices⟩) ∧
      ∀ service, bytesFor service toServices = bytesFor service msgs) ∧
    (∃ u toVuarts,
      cmnRxHandlerAll numVuart Uart.init (muxSendAll cfg Mux.init msgs).2 =
        (u, ⟨[], toVuarts⟩) ∧
      (∀ service, Configured numVuart cfg service →
        bytesFor (cfg.serviceId service) toVuarts = bytesFor service msgs) ∧
      ∀ id, (∀ service, Configured numVuart cfg service → cfg.serviceId service ≠ id) →
        bytesFor id toVuarts = []) := by
  -- the messages as the line carries them
  have hids : ∀ msg ∈ cfg.withIds msgs, ∃ service,
      Configured numVuart cfg service ∧ cfg.serviceId service = msg.1 := by
    intro msg hmsg
    obtain ⟨msg', hmsg', rfl⟩ := List.mem_map.mp hmsg
    exact ⟨msg'.1, hmsgs msg' hmsg', rfl⟩
  refine ⟨?_, ?_⟩
  · have hrange : ∀ s, (∃ service, Configured numVuart cfg service ∧ cfg.serviceId service = s) →
        (SERMUX_SERVICE_ID_FIRST ≤ s && s ≤ SERMUX_SERVICE_ID_LAST) = true := by
      rintro s ⟨service, hservice, rfl⟩
      exact serviceId_of_isVuart hn hservice.vuart
    have hreads := reads_messages hrange hids none
    have hservice : ∀ s, (∃ service, Configured numVuart cfg service ∧
        cfg.serviceId service = s) → cfg.service? s = some ((cfg.service? s).getD .rfs) := by
      rintro s ⟨service, hservice, rfl⟩
      rw [hservice.service]
      rfl
    have hcur : ∀ s, Mux.init.serviceIdIn = some s → ∃ service,
        Configured numVuart cfg service ∧ cfg.serviceId service = s := by
      intro s h
      cases h
    obtain ⟨m, hm⟩ := muxReceiveAll_eq hservice hcur hreads.wellFormed hreads.labelled
      hreads.noForce
    refine ⟨m, msgs, ?_, fun service => rfl⟩
    have hback : (cfg.withIds msgs).map (fun msg => ((cfg.service? msg.1).getD .rfs, msg.2)) =
        msgs := by
      unfold MuxConfig.withIds
      rw [List.map_map]
      refine (List.map_congr_left fun msg hmsg => ?_).trans (List.map_id msgs)
      simp only [Function.comp_apply, (hmsgs msg hmsg).service, Option.getD_some, id]
    have hpend := hreads.pending
    rw [platformUartSendAll_eq]
    simp only [Mux.init, Uart.init] at hm hpend ⊢
    rw [hpend, hback] at hm
    exact hm
  · have hvuart : ∀ msg ∈ cfg.withIds msgs, isVuart numVuart msg.1 = true := by
      intro msg hmsg
      obtain ⟨service, hservice, hid⟩ := hids msg hmsg
      exact hid ▸ hservice.vuart
    have hreads := reads_messages (fun s => serviceId_of_isVuart hn) hvuart none
    obtain ⟨u, hu⟩ := cmnRxHandlerAll_eq (u := Uart.init) hn hreads.wellFormed hreads.labelled
      hreads.noForce
    refine ⟨u, cfg.withIds msgs, ?_, fun service => bytesFor_withIds hmsgs, ?_⟩
    · rw [muxSendAll_eq]
      have hpend := hreads.pending
      simp only [Mux.init, Uart.init] at hu hpend ⊢
      exact hu.trans (by rw [hpend])
    · intro id hid
      unfold bytesFor
      rw [List.filter_eq_nil_iff.mpr]
      · rfl
      · intro msg hmsg h
        obtain ⟨service, hservice, hid'⟩ := hids msg hmsg
        exact hid service hservice (hid'.trans (of_decide_eq_true h))

/-- Two services and bytes that have to be escaped. -/
theorem sermux_round_trip_two_services :
    (∃ m toServices,
      muxReceiveAll ⟨false, 2⟩ Mux.init (platformUartSendAll Uart.init
        (MuxConfig.withIds ⟨false, 2⟩ [(.port 0, 0xC0), (.port 1, 0xD0), (.port 1, 0xFF)])).2 =
        .ok (m, ⟨[], toServices⟩) ∧
      ∀ service, bytesFor service toServices =
        bytesFor service [(.port 0, 0xC0), (.port 1, 0xD0), (.port 1, 0xFF)]) ∧
    (∃ u toVuarts,
      cmnRxHandlerAll 2 Uart.init (muxSendAll ⟨false, 2⟩ Mux.init
        [(.port 0, 0xC0), (.port 1, 0xD0), (.port 1, 0xFF)]).2 = (u, ⟨[], toVuarts⟩) ∧
      (∀ service, Configured 2 ⟨false, 2⟩ service →
        bytesFor (MuxConfig.serviceId ⟨false, 2⟩ service) toVuarts =
          bytesFor service [(.port 0, 0xC0), (.port 1, 0xD0), (.port 1, 0xFF)]) ∧
      ∀ id, (∀ service, Configured 2 ⟨false, 2⟩ service →
          MuxConfig.serviceId ⟨false, 2⟩ service ≠ id) → bytesFor id toVuarts = []) := by
  refine sermux_round_trip (by decide) ?_
  intro msg hmsg
  simp only [List.mem_cons, List.not_mem_nil, or_false] at hmsg
  rcases hmsg with rfl | rfl | rfl
  · exact ⟨by decide, by decide⟩
  · exact ⟨by decide, by decide⟩
  · exact ⟨by decide, by decide⟩

end Sermux
