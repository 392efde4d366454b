import EluaWebServer.Sermux.Line

/-!
# One direction of the line

`platform_uart_send` can be interrupted between any two of its statements, so
it is modelled statement by statement (`sendStart`, `sendStep`), with the
proof that an undisturbed send is `platformUartSend`.

`Dir` is one direction of the link: the variables of its receiver and of its
sender, and the bytes in flight, with the data bytes sent and delivered since
the receiver's last restart.  `Linked` is the invariant of a direction: at
most one request to send again is outstanding, and then the sender still
knows the only byte that was lost.  Each thing that either end does to a
direction keeps it.
-/

namespace Sermux

/-! ## The statements of a send -/

/-- The statement that comes next in `platform_uart_send`. -/
inductive SendPoint where
  | setLast
  | emitData
  | emitEscaped
  | setLastEscaped
  | setOut
  deriving DecidableEq, Repr

/-- A send that has begun. -/
structure Sending where
  point : SendPoint
  id : UInt8
  data : UInt8
  deriving DecidableEq, Repr

/-- The beginning of `platform_uart_send`: the service id if it is new. -/
def sendStart (u : Uart) (id data : UInt8) : Sending × List UInt8 :=
  (⟨.setLast, id, data⟩, if u.serviceIdOut ≠ some id then [id] else [])

/-- The next statement of `platform_uart_send`. -/
def sendStep (u : Uart) : Sending → Uart × Option Sending × List UInt8
  | ⟨.setLast, id, data⟩ =>
      ({ u with lastSent := some ⟨false, data⟩ }, some ⟨.emitData, id, data⟩, [])
  | ⟨.emitData, id, data⟩ =>
      if needsEscape data then (u, some ⟨.emitEscaped, id, data⟩, [SERMUX_ESCAPE_CHAR])
      else (u, some ⟨.setOut, id, data⟩, [data])
  | ⟨.emitEscaped, id, data⟩ =>
      (u, some ⟨.setLastEscaped, id, data⟩, [data ^^^ SERMUX_ESCAPE_XOR_MASK])
  | ⟨.setLastEscaped, id, data⟩ =>
      ({ u with lastSent := some ⟨true, data ^^^ SERMUX_ESCAPE_XOR_MASK⟩ },
        some ⟨.setOut, id, data⟩, [])
  | ⟨.setOut, id, _⟩ => ({ u with serviceIdOut := some id }, none, [])

/-- The statements of a send one after the other, `n` at most. -/
def sendSteps (u : Uart) : Nat → Option Sending → Uart × Option Sending × List UInt8
  | 0, s => (u, s, [])
  | _, none => (u, none, [])
  | n + 1, some s =>
      let (u, s, out) := sendStep u s
      let (u, s, rest) := sendSteps u n s
      (u, s, out ++ rest)

/-- An undisturbed send is `platformUartSend`. -/
theorem sendSteps_eq (u : Uart) (id data : UInt8) :
    sendSteps u 5 (some (sendStart u id data).1) =
        ((platformUartSend u id data).1, none, (sentAs data).bytes) ∧
      (platformUartSend u id data).2 = (sendStart u id data).2 ++ (sentAs data).bytes := by
  refine ⟨?_, rfl⟩
  by_cases h : needsEscape data = true
  · simp only [sendStart, sendSteps, sendStep, if_pos h, platformUartSend, sentAs,
      LastSent.bytes, List.nil_append, List.append_nil, List.singleton_append, if_true]
  · simp only [sendStart, sendSteps, sendStep, if_neg h, platformUartSend, sentAs,
      LastSent.bytes, List.nil_append, List.append_nil, Bool.false_eq_true, if_false]

/-! ## A direction -/

/-- One direction of the link.  `last` is `fresh` when its byte was sent since
the receiver's last restart. -/
structure Dir where
  cur : Option UInt8
  esc : Bool
  out : Option UInt8
  last : Option LastSent
  fresh : Bool
  sending : Option Sending
  line : Line
  sent : List (UInt8 × UInt8)
  got : List (UInt8 × UInt8)

/-- What the sender answers to a request: a service and its last character.
There is no useful answer while a send has changed only part of this. -/
def resend (out : Option UInt8) (last : Option LastSent) :
    Option Sending → Option (UInt8 × LastSent)
  | none => out.bind fun s => last.map (s, ·)
  | some ⟨.setLast, id, _⟩ => if out = some id then last.map (id, ·) else none
  | some ⟨.emitData, _, _⟩ => none
  | some ⟨.emitEscaped, _, _⟩ => none
  | some ⟨.setLastEscaped, id, data⟩ => some (id, ⟨true, data ^^^ SERMUX_ESCAPE_XOR_MASK⟩)
  | some ⟨.setOut, id, _⟩ => last.map (id, ·)

/-- An interrupt finds the variables of the sender as between two sends. -/
def Quiet (out : Option UInt8) : Option Sending → Prop
  | none => True
  | some ⟨.setLast, id, _⟩ => out = some id
  | some ⟨.setOut, id, _⟩ => out = some id
  | some _ => False

instance (out : Option UInt8) : (s : Option Sending) → Decidable (Quiet out s)
  | none => inferInstanceAs (Decidable True)
  | some ⟨.setLast, _, _⟩ => inferInstanceAs (Decidable (_ = _))
  | some ⟨.emitData, _, _⟩ => inferInstanceAs (Decidable False)
  | some ⟨.emitEscaped, _, _⟩ => inferInstanceAs (Decidable False)
  | some ⟨.setLastEscaped, _, _⟩ => inferInstanceAs (Decidable False)
  | some ⟨.setOut, _, _⟩ => inferInstanceAs (Decidable (_ = _))

namespace Dir

/-- The service of the sender's last or current send. -/
def service (d : Dir) : Option UInt8 :=
  match d.sending with
  | none => d.out
  | some s => some s.id

/-- The requests to send again that are in flight, `asked`, or still to come. -/
def requests (d : Dir) (asked : Nat) : Nat := unlabelled d.cur d.line + asked

/-- Either the receiver gets what was sent, or it has to ask once, for the one
byte that was sent since its restart. -/
inductive Balanced (d : Dir) (asked : Nat) : Prop where
  | level (none_owed : d.requests asked = 0)
      (reads : d.got ++ pending d.cur d.esc d.line = d.sent)
  | owing (s : UInt8) (l : LastSent) (one_owed : d.requests asked = 1)
      (answer : resend d.out d.last d.sending = some (s, l)) (got : d.got = [])
      (quiet_line : pending d.cur d.esc d.line = [])
      (lost : d.sent = if d.fresh then [(s, unescape l.esc l.char)] else [])

/-- The sender's last character at each point of a send. -/
def LastOk (d : Dir) : Prop :=
  match d.sending with
  | none => ∀ l, d.last = some l → (∃ data, l = sentAs data) ∧ d.out ≠ none
  | some ⟨.setLast, _, _⟩ => ∀ l, d.last = some l → ∃ data, l = sentAs data
  | some ⟨.emitData, _, data⟩ => d.last = some ⟨false, data⟩
  | some ⟨.emitEscaped, _, data⟩ => d.last = some ⟨false, data⟩ ∧ needsEscape data = true
  | some ⟨.setLastEscaped, _, data⟩ => needsEscape data = true
  | some ⟨.setOut, _, data⟩ => ∀ l, d.last = some l → l = sentAs data

/-- The sender is between an escape character and the escaped one. -/
def InEscape (d : Dir) : Prop := ∃ id data, d.sending = some ⟨.emitEscaped, id, data⟩

/-- **The invariant of a direction**, for a receiver that has `asked` for as
many bytes again. -/
structure Linked (ok : UInt8 → Prop) (d : Dir) (asked : Nat) : Prop where
  wellFormed : WellFormed ok d.esc d.line
  cur_ok : ∀ s, d.cur = some s → ok s
  service_ok : ∀ s, d.out = some s ∨ d.service = some s → ok s
  sync : ∀ s, d.service = some s →
    finalService d.cur d.line = none ∨ finalService d.cur d.line = some s
  last_ok : d.LastOk
  tail : finalEsc d.esc d.line = true → d.InEscape
  inEscape : d.InEscape →
    finalEsc d.esc d.line = true ∨ finalService d.cur d.line = none
  unset : d.cur = none → d.got = []
  balanced : d.Balanced asked

/-! ## What happens to a direction -/

def start (d : Dir) (id data : UInt8) : Dir :=
  { d with
    line := d.line ++ cells true (if d.out ≠ some id then [id] else [])
    sending := some ⟨.setLast, id, data⟩ }

/-- The next statement of a send; the data byte counts as sent when its
character is. -/
def advance (d : Dir) : Sending → Dir
  | ⟨.setLast, id, data⟩ =>
      { d with last := some ⟨false, data⟩, sending := some ⟨.emitData, id, data⟩ }
  | ⟨.emitData, id, data⟩ =>
      if needsEscape data then
        { d with
          line := d.line ++ cells true [SERMUX_ESCAPE_CHAR]
          sending := some ⟨.emitEscaped, id, data⟩ }
      else
        { d with
          line := d.line ++ cells true [data]
          sending := some ⟨.setOut, id, data⟩
          sent := d.sent ++ [(id, data)]
          fresh := true }
  | ⟨.emitEscaped, id, data⟩ =>
      { d with
        line := d.line ++ cells true [data ^^^ SERMUX_ESCAPE_XOR_MASK]
        sending := some ⟨.setLastEscaped, id, data⟩
        sent := d.sent ++ [(id, data)]
        fresh := true }
  | ⟨.setLastEscaped, id, data⟩ =>
      { d with
        last := some ⟨true, data ^^^ SERMUX_ESCAPE_XOR_MASK⟩
        sending := some ⟨.setOut, id, data⟩ }
  | ⟨.setOut, id, _⟩ => { d with out := some id, sending := none }

/-- The sender answers a request. -/
def answer (d : Dir) (s : UInt8) (l : LastSent) : Dir :=
  { d with line := d.line ++ cells d.fresh (s :: l.bytes), last := none }

/-- The sender, as the receiver of the other direction, asks for a byte again. -/
def request (d : Dir) : Dir :=
  { d with line := d.line ++ cells d.fresh [SERMUX_FORCE_SID_CHAR] }

/-- The receiver takes a byte. -/
def receive (d : Dir) (c : Cell) (cs : Line) : Dir :=
  match symbol c.byte with
  | .escape => { d with esc := true, line := cs }
  | .service s => { d with cur := some s, line := cs }
  | .force => { d with line := cs }
  | .char b =>
      { d with
        esc := false
        line := cs
        got := d.got ++ (match d.cur with
          | some s => if c.fresh then [(s, unescape d.esc b)] else []
          | none => []) }

/-- The receiver takes a byte and asks for it again. -/
def asks (d : Dir) (c : Cell) : Nat :=
  match symbol c.byte with
  | .char _ => if d.cur = none then 1 else 0
  | _ => 0

def restartReceiver (d : Dir) : Dir :=
  { d with cur := none, esc := false, line := stale d.line, fresh := false, sent := [], got := [] }

def restartSender (d : Dir) : Dir :=
  { d with out := none, last := none, sending := none }

/-! ## The invariant is kept -/

variable {ok : UInt8 → Prop} {d : Dir} {asked : Nat}

/-- A direction whose sender could not answer a request owes nothing. -/
theorem Balanced.level_of_resend (h : d.Balanced asked)
    (hresend : resend d.out d.last d.sending = none) :
    d.requests asked = 0 ∧ d.got ++ pending d.cur d.esc d.line = d.sent := by
  cases h with
  | level none_owed reads => exact ⟨none_owed, reads⟩
  | owing s l one_owed answer =>
      rw [hresend] at answer
      cases answer

/-- What the sender would answer is right. -/
theorem Linked.resend_ok (h : Linked ok d asked) {s : UInt8} {l : LastSent}
    (hresend : resend d.out d.last d.sending = some (s, l)) :
    d.service = some s ∧ ∃ data, l = sentAs data := by
  have hlast := h.last_ok
  obtain ⟨cur, esc, out, last, fresh, sending, line, sent, got⟩ := d
  cases sending with
  | none =>
      simp only [resend, Option.bind_eq_some_iff, Option.map_eq_some_iff, Prod.mk.injEq] at hresend
      obtain ⟨s', hout, l', hl, rfl, rfl⟩ := hresend
      exact ⟨hout, (hlast l' hl).1⟩
  | some sending =>
      obtain ⟨point, id, data⟩ := sending
      cases point with
      | setLast =>
          simp only [resend] at hresend
          by_cases hid : out = some id
          · rw [if_pos hid, Option.map_eq_some_iff] at hresend
            obtain ⟨l', hl, heq⟩ := hresend
            cases heq
            exact ⟨rfl, hlast l hl⟩
          · rw [if_neg hid] at hresend
            cases hresend
      | emitData => cases hresend
      | emitEscaped => cases hresend
      | setLastEscaped =>
          cases hresend
          have hneeds : needsEscape data = true := hlast
          refine ⟨rfl, data, ?_⟩
          rw [sentAs, if_pos hneeds]
      | setOut =>
          simp only [resend, Option.map_eq_some_iff, Prod.mk.injEq] at hresend
          obtain ⟨l', hl, rfl, heq⟩ := hresend
          exact ⟨rfl, data, hlast l (heq ▸ hl)⟩

/-- Only what the line reads as matters to the balance. -/
theorem Balanced.same (h : d.Balanced asked) {cur : Option UInt8} {esc : Bool} {line : Line}
    (hun : unlabelled cur line = unlabelled d.cur d.line)
    (hpend : pending cur esc line = pending d.cur d.esc d.line) :
    Balanced { d with cur := cur, esc := esc, line := line } asked := by
  cases h with
  | level none_owed reads =>
      refine .level ?_ ((congrArg (d.got ++ ·) hpend).trans reads)
      unfold requests at none_owed ⊢
      exact hun ▸ none_owed
  | owing s l one_owed answer got quiet_line lost =>
      refine .owing s l ?_ answer got (hpend.trans quiet_line) lost
      unfold requests at one_owed ⊢
      exact hun ▸ one_owed

theorem Linked.start (h : Linked ok d asked) (hidle : d.sending = none) {id : UInt8} (hid : ok id)
    (hrange : (SERMUX_SERVICE_ID_FIRST ≤ id && id ≤ SERMUX_SERVICE_ID_LAST) = true)
    (hreq : d.out = some id ∨ d.requests asked = 0) (data : UInt8) :
    Linked ok (d.start id data) asked := by
  obtain ⟨hwf, hcur, hok, hsync, hlast, htail, hin, hunset, hbal⟩ := h
  obtain ⟨cur, esc, out, last, fresh, sending, line, sent, got⟩ := d
  simp only at hidle hwf hcur hok hsync htail hin hunset hreq
  subst hidle
  have hnotEsc : finalEsc esc line = false := by
    by_contra hesc
    obtain ⟨id, data, hs⟩ := htail (Bool.eq_true_of_not_eq_false hesc)
    cases hs
  have hlast' : ∀ l, last = some l → ∃ data, l = sentAs data := fun l hl => (hlast l hl).1
  have hnotIn : ∀ line, ¬ InEscape
      ⟨cur, esc, out, last, fresh, some ⟨.setLast, id, data⟩, line, sent, got⟩ := by
    rintro line ⟨id, data, hs⟩
    cases hs
  by_cases hout : out = some id
  · -- nothing is put on the line
    subst hout
    have hsame : Dir.start ⟨cur, esc, some id, last, fresh, none, line, sent, got⟩ id data =
        ⟨cur, esc, some id, last, fresh, some ⟨.setLast, id, data⟩, line, sent, got⟩ := by
      simp only [Dir.start, ne_eq, not_true_eq_false, if_false, cells, List.map_nil,
        List.append_nil]
    rw [hsame]
    refine ⟨hwf, hcur, ?_, hsync, hlast', ?_, fun hi => absurd hi (hnotIn _), hunset, ?_⟩
    · exact fun s hs => hok s hs
    · intro hesc
      rw [hnotEsc] at hesc
      cases hesc
    · cases hbal with
      | level none_owed reads => exact .level none_owed reads
      | owing s l one_owed answer got quiet_line lost =>
          simp only [resend, Option.bind_some, Option.map_eq_some_iff, Prod.mk.injEq] at answer
          obtain ⟨l', hl, rfl, rfl⟩ := answer
          refine .owing id l' one_owed ?_ got quiet_line lost
          simp only [resend, if_true, hl, Option.map_some]
  · have hzero := hreq.resolve_left hout
    have hsym := symbol_service hrange
    have hlevel : got ++ pending cur esc line = sent := by
      cases hbal with
      | level none_owed reads => exact reads
      | owing s l one_owed =>
          rw [hzero] at one_owed
          cases one_owed
    have hsame : Dir.start ⟨cur, esc, out, last, fresh, none, line, sent, got⟩ id data =
        ⟨cur, esc, out, last, fresh, some ⟨.setLast, id, data⟩, line ++ cells true [id],
          sent, got⟩ := by
      simp only [Dir.start, ne_eq, hout, not_false_eq_true, if_true]
    have hfinal : finalService cur (line ++ cells true [id]) = some id := by
      rw [finalService_append]
      simp only [cells, List.map_cons, List.map_nil, finalService, hsym]
    rw [hsame]
    refine ⟨?_, hcur, ?_, ?_, hlast', ?_, fun hi => absurd hi (hnotIn _), hunset, ?_⟩
    · rw [wellFormed_append, hnotEsc]
      refine ⟨hwf, ?_⟩
      simp only [cells, List.map_cons, List.map_nil, WellFormed, hsym]
      exact ⟨trivial, hid, trivial⟩
    · rintro s (hs | hs)
      · exact hok s (.inl hs)
      · cases hs
        exact hid
    · intro s hs
      cases hs
      exact .inr hfinal
    · intro hesc
      rw [finalEsc_append, hnotEsc] at hesc
      simp only [cells, List.map_cons, List.map_nil, finalEsc, hsym] at hesc
      cases hesc
    · refine .level ?_ ?_
      · unfold requests at hzero ⊢
        simp only [unlabelled_append, cells, List.map_cons, List.map_nil, unlabelled, hsym]
          at hzero ⊢
        exact hzero
      · simp only [pending_append, cells, List.map_cons, List.map_nil, pending, hsym,
          List.append_nil]
        exact hlevel

/-- Sending the character of a data byte: if the receiver has no service, this
is the byte that it will ask for. -/
theorem Balanced.emit (h : d.Balanced asked) (hunset : d.cur = none → d.got = [])
    (hresend : resend d.out d.last d.sending = none) {id data c : UInt8}
    (hc : needsEscape c = false)
    (hservice : finalService d.cur d.line = none ∨ finalService d.cur d.line = some id)
    (hdata : finalService d.cur d.line = none ∨ unescape (finalEsc d.esc d.line) c = data)
    {sending : Option Sending} {l : LastSent}
    (hanswer : resend d.out d.last sending = some (id, l)) (hl : unescape l.esc l.char = data) :
    Balanced { d with
      line := d.line ++ cells true [c], sending := sending, sent := d.sent ++ [(id, data)],
      fresh := true } asked := by
  obtain ⟨hzero, hreads⟩ := h.level_of_resend hresend
  have hsym := symbol_char hc
  unfold requests at hzero
  cases hfinal : finalService d.cur d.line with
  | none =>
      obtain ⟨hcur, hpend⟩ := pending_of_finalService d.esc hfinal
      have hgot := hunset hcur
      rw [hgot, hpend, List.append_nil] at hreads
      refine .owing id l ?_ hanswer hgot ?_ ?_
      · simp only [requests, unlabelled_append, hfinal, cells, List.map_cons, List.map_nil,
          unlabelled, hsym, if_true]
        omega
      · simp only [pending_append, hfinal, hpend, cells, List.map_cons, List.map_nil, pending,
          hsym, List.append_nil]
      · simp only [← hreads, List.nil_append, hl, if_true]
  | some s =>
      rw [hfinal] at hservice hdata
      have hs : s = id := Option.some.inj (hservice.resolve_left (Option.some_ne_none s))
      have hun := hdata.resolve_left (Option.some_ne_none s)
      subst hs
      refine .level ?_ ?_
      · simp only [requests, unlabelled_append, hfinal, cells, List.map_cons, List.map_nil,
          unlabelled, hsym, reduceCtorEq, if_false]
        omega
      · simp only [pending_append, hfinal, cells, List.map_cons, List.map_nil, pending, hsym,
          if_true, List.append_nil, hun]
        rw [← List.append_assoc, hreads]

/-- A statement of a send keeps the invariant, when nothing was asked for at
the statement that changes the last character. -/
theorem Linked.advance (h : Linked ok d asked) {s : Sending} (hs : d.sending = some s)
    (hreq : s.point = .setLast → d.requests asked = 0) : Linked ok (d.advance s) asked := by
  obtain ⟨hwf, hcur, hok, hsync, hlast, htail, hin, hunset, hbal⟩ := h
  obtain ⟨cur, esc, out, last, fresh, sending, line, sent, got⟩ := d
  obtain ⟨point, id, data⟩ := s
  simp only at hs hwf hcur hok hsync htail hin hunset hreq
  subst hs
  -- outside `emitEscaped` no escaped character is waited for
  have hnotIn : ∀ {p last fresh line sent}, p ≠ .emitEscaped → ¬ InEscape
      ⟨cur, esc, out, last, fresh, some ⟨p, id, data⟩, line, sent, got⟩ := by
    rintro p last fresh line sent hp ⟨id, data, hs⟩
    cases hs
    exact hp rfl
  have hnotEsc : point ≠ .emitEscaped → finalEsc esc line = false := by
    intro hp
    by_contra hesc
    exact hnotIn hp (htail (Bool.eq_true_of_not_eq_false hesc))
  cases point with
  | setLast =>
      refine ⟨hwf, hcur, hok, hsync, rfl, ?_, fun hi => absurd hi (hnotIn (by decide)), hunset, ?_⟩
      · intro hesc
        exact absurd (htail hesc) (hnotIn (by decide))
      · cases hbal with
        | level none_owed reads => exact .level none_owed reads
        | owing s l one_owed =>
            rw [hreq rfl] at one_owed
            cases one_owed
  | emitData =>
      have hfinal := hsync id rfl
      rw [Dir.advance]
      by_cases hneeds : needsEscape data = true
      · rw [if_pos hneeds]
        refine ⟨?_, hcur, hok, ?_, ⟨hlast, hneeds⟩, fun _ => ⟨id, data, rfl⟩, fun _ => .inl ?_, hunset, ?_⟩
        · rw [wellFormed_append, hnotEsc (by decide)]
          exact ⟨hwf, rfl, trivial⟩
        · intro s hs
          simp only [finalService_append]
          exact hsync s hs
        · simp only [finalEsc_append]
          rfl
        · obtain ⟨hzero, hreads⟩ := hbal.level_of_resend rfl
          refine .level ?_ ?_
          · unfold requests at hzero ⊢
            simp only [unlabelled_append] at hzero ⊢
            exact hzero
          · simp only [pending_append]
            exact (congrArg (got ++ ·) (List.append_nil _)).trans hreads
      · rw [if_neg hneeds]
        have hc : needsEscape data = false := Bool.eq_false_iff.mpr hneeds
        have hsym := symbol_char hc
        have hsent : (⟨false, data⟩ : LastSent) = sentAs data := by
          rw [sentAs, if_neg hneeds]
        refine ⟨?_, hcur, hok, ?_, ?_, ?_, fun hi => absurd hi (hnotIn (by decide)), hunset, ?_⟩
        · rw [wellFormed_append, hnotEsc (by decide)]
          simp only [cells, List.map_cons, List.map_nil, WellFormed, hsym]
          exact ⟨hwf, fun hf => absurd hf Bool.false_ne_true, trivial⟩
        · intro s hs
          simp only [finalService_append, cells, List.map_cons, List.map_nil, finalService, hsym]
          exact hsync s hs
        · intro l hl
          rw [show last = some ⟨false, data⟩ from hlast] at hl
          exact hsent ▸ (Option.some.inj hl).symm
        · intro hesc
          simp only [finalEsc_append, cells, List.map_cons, List.map_nil, finalEsc, hsym] at hesc
          cases hesc
        · refine hbal.emit hunset rfl hc hfinal (.inr ?_) (l := ⟨false, data⟩) ?_ rfl
          · rw [hnotEsc (by decide)]
            rfl
          · simp only [resend, show last = some ⟨false, data⟩ from hlast, Option.map_some]
  | emitEscaped =>
      have hfinal := hsync id rfl
      obtain ⟨hlast, hneeds⟩ := hlast
      have hc := needsEscape_xor hneeds
      have hsym := symbol_char hc
      refine ⟨?_, hcur, hok, ?_, hneeds, ?_, fun hi => absurd hi (hnotIn (by decide)), hunset, ?_⟩
      · rw [Dir.advance, wellFormed_append]
        simp only [cells, List.map_cons, List.map_nil, WellFormed, hsym]
        refine ⟨hwf, fun _ => ?_, trivial⟩
        unfold unescape
        rw [if_pos rfl, xor_mask_xor_mask]
        exact hneeds
      · intro s hs
        simp only [Dir.advance, finalService_append, cells, List.map_cons, List.map_nil,
          finalService, hsym]
        exact hsync s hs
      · intro hesc
        simp only [Dir.advance, finalEsc_append, cells, List.map_cons, List.map_nil, finalEsc,
          hsym] at hesc
        cases hesc
      · refine hbal.emit hunset rfl hc hfinal ?_ (l := ⟨true, data ^^^ SERMUX_ESCAPE_XOR_MASK⟩)
          rfl (xor_mask_xor_mask data)
        rcases hin ⟨id, data, rfl⟩ with hesc | hnone
        · right
          rw [hesc]
          exact xor_mask_xor_mask data
        · exact .inl hnone
  | setLastEscaped =>
      have hneeds : needsEscape data = true := hlast
      have hsent : (⟨true, data ^^^ SERMUX_ESCAPE_XOR_MASK⟩ : LastSent) = sentAs data := by
        rw [sentAs, if_pos hneeds]
      refine ⟨hwf, hcur, hok, hsync, ?_, ?_, fun hi => absurd hi (hnotIn (by decide)), hunset, ?_⟩
      · intro l hl
        exact hsent ▸ (Option.some.inj hl).symm
      · intro hesc
        exact absurd (htail hesc) (hnotIn (by decide))
      · cases hbal with
        | level none_owed reads => exact .level none_owed reads
        | owing s l one_owed answer got quiet_line lost =>
            cases answer
            exact .owing id _ one_owed rfl got quiet_line lost
  | setOut =>
      refine ⟨hwf, hcur, ?_, hsync, ?_, ?_, ?_, hunset, ?_⟩
      · rintro s (hs | hs)
        · exact hok s (.inr hs)
        · exact hok s (.inr hs)
      · intro l hl
        exact ⟨⟨data, hlast l hl⟩, Option.some_ne_none id⟩
      · intro hesc
        exact absurd (htail hesc) (hnotIn (by decide))
      · rintro ⟨id', data', hi⟩
        cases hi
      · cases hbal with
        | level none_owed reads => exact .level none_owed reads
        | owing s l one_owed answer got quiet_line lost =>
            exact .owing s l one_owed answer got quiet_line lost

/-- A request that is answered between two sends: the byte that was lost is
sent again, with its service. -/
theorem Linked.answer (h : Linked ok d (asked + 1)) (hquiet : Quiet d.out d.sending)
    (hrange : ∀ s, ok s → (SERMUX_SERVICE_ID_FIRST ≤ s && s ≤ SERMUX_SERVICE_ID_LAST) = true) :
    ∃ s data, d.out = some s ∧ d.last = some (sentAs data) ∧
      Linked ok (d.answer s (sentAs data)) asked := by
  obtain ⟨s, l, hone, hanswer, hgot, hpend, hlost⟩ :
      ∃ s l, d.requests (asked + 1) = 1 ∧ resend d.out d.last d.sending = some (s, l) ∧
        d.got = [] ∧ pending d.cur d.esc d.line = [] ∧
        d.sent = if d.fresh then [(s, unescape l.esc l.char)] else [] := by
    cases h.balanced with
    | level none_owed =>
        unfold requests at none_owed
        omega
    | owing s l one_owed answer got quiet_line lost =>
        exact ⟨s, l, one_owed, answer, got, quiet_line, lost⟩
  obtain ⟨hserv, data, rfl⟩ := h.resend_ok hanswer
  have hs : ok s := h.service_ok s (.inr hserv)
  obtain ⟨hwf, hcur, hok, hsync, hlast, htail, hin, hunset, hbal⟩ := h
  -- the variables of the sender are those of the answer
  have hvars : d.out = some s ∧ d.last = some (sentAs data) ∧ ¬ d.InEscape ∧
      Dir.LastOk { d with last := none } := by
    obtain ⟨cur, esc, out, last, fresh, sending, line, sent, got⟩ := d
    cases sending with
    | none =>
        simp only [resend, Option.bind_eq_some_iff, Option.map_eq_some_iff, Prod.mk.injEq]
          at hanswer
        obtain ⟨s', hout, l', hl', rfl, rfl⟩ := hanswer
        refine ⟨hout, hl', ?_, nofun⟩
        rintro ⟨id, data, hi⟩
        cases hi
    | some sending =>
        obtain ⟨point, id, data'⟩ := sending
        have hid : id = s := Option.some.inj hserv
        subst hid
        cases point with
        | setLast =>
            have hout : out = some id := hquiet
            simp only [resend, if_pos hout, Option.map_eq_some_iff, Prod.mk.injEq, true_and,
              exists_eq_right] at hanswer
            refine ⟨hout, hanswer, ?_, nofun⟩
            rintro ⟨id, data, hi⟩
            cases hi
        | emitData => exact hquiet.elim
        | emitEscaped => exact hquiet.elim
        | setLastEscaped => exact hquiet.elim
        | setOut =>
            simp only [resend, Option.map_eq_some_iff, Prod.mk.injEq, true_and,
              exists_eq_right] at hanswer
            refine ⟨hquiet, hanswer, ?_, nofun⟩
            rintro ⟨id, data, hi⟩
            cases hi
  obtain ⟨hout, hlastl, hnotIn, hlast'⟩ := hvars
  refine ⟨s, data, hout, hlastl, ?_⟩
  have hnotEsc : finalEsc d.esc d.line = false := by
    by_contra hesc
    exact hnotIn (htail (Bool.eq_true_of_not_eq_false hesc))
  have hsym := symbol_service (hrange s hs)
  obtain ⟨hpd, hfs, hfe, hw⟩ := line_sentAs d.fresh data
  have hsplit : cells d.fresh (s :: (sentAs data).bytes) =
      ⟨s, d.fresh⟩ :: cells d.fresh (sentAs data).bytes := rfl
  have hfinal : finalService d.cur (d.line ++ cells d.fresh (s :: (sentAs data).bytes)) =
      some s := by
    rw [finalService_append, hsplit]
    simp only [finalService, hsym, hfs]
  refine ⟨?_, hcur, hok, ?_, hlast', ?_, fun hi => absurd hi hnotIn, hunset, .level ?_ ?_⟩
  · simp only [Dir.answer, wellFormed_append, hsplit, hnotEsc, WellFormed, hsym]
    exact ⟨hwf, trivial, hs, hw ok⟩
  · intro t ht
    have heq : some s = some t := hserv.symm.trans ht
    exact .inr (hfinal.trans heq)
  · intro hesc
    simp only [Dir.answer, finalEsc_append, hsplit, hnotEsc, finalEsc, hsym, hfe] at hesc
    cases hesc
  · unfold requests at hone ⊢
    simp only [Dir.answer, unlabelled_append, hsplit, unlabelled, hsym, unlabelled_some]
    omega
  · simp only [Dir.answer, pending_append, hsplit, hnotEsc, pending, hsym, hpd, hpend, hgot,
      List.nil_append]
    rw [hlost, unescape_sentAs]

/-- A request for the other direction does not disturb this one. -/
theorem Linked.request (h : Linked ok d asked) : Linked ok d.request asked := by
  obtain ⟨hwf, hcur, hok, hsync, hlast, htail, hin, hunset, hbal⟩ := h
  have hservice : finalService d.cur d.request.line = finalService d.cur d.line := by
    rw [Dir.request, finalService_append]
    rfl
  have hesc : finalEsc d.esc d.request.line = finalEsc d.esc d.line := by
    rw [Dir.request, finalEsc_append]
    rfl
  have hun : unlabelled d.cur d.request.line = unlabelled d.cur d.line := by
    rw [Dir.request, unlabelled_append]
    rfl
  have hpend : pending d.cur d.esc d.request.line = pending d.cur d.esc d.line := by
    rw [Dir.request, pending_append]
    exact List.append_nil _
  refine ⟨?_, hcur, hok, ?_, hlast, ?_, ?_, hunset, ?_⟩
  · exact (wellFormed_append _ _ _).mpr ⟨hwf, trivial⟩
  · intro s hs
    exact hservice ▸ hsync s hs
  · intro ht
    exact htail (hesc ▸ ht)
  · intro hi
    have hold := hin hi
    rw [← hesc, ← hservice] at hold
    exact hold
  · exact hbal.same hun hpend

/-- Taking a byte keeps the invariant; a byte without a service is asked for
once more. -/
theorem Linked.receive (h : Linked ok d asked) {c : Cell} {cs : Line} (hline : d.line = c :: cs) :
    Linked ok (d.receive c cs) (asked + d.asks c) := by
  obtain ⟨hwf, hcur, hok, hsync, hlast, htail, hin, hunset, hbal⟩ := h
  obtain ⟨cur, esc, out, last, fresh, sending, line, sent, got⟩ := d
  simp only at hline hwf hcur hok hsync htail hin hunset
  subst hline
  have hreq : ∀ a, requests ⟨cur, esc, out, last, fresh, sending, c :: cs, sent, got⟩ a =
      unlabelled cur (c :: cs) + a := fun a => rfl
  unfold Dir.receive asks
  simp only [WellFormed, finalService, finalEsc, unlabelled] at hwf hsync htail hin hreq
  cases hs : symbol c.byte with
  | escape =>
      simp only [hs] at hwf hsync htail hin hreq ⊢
      refine ⟨hwf.2, hcur, hok, hsync, hlast, htail, hin, hunset, ?_⟩
      exact hbal.same (by simp only [unlabelled, hs]) (by simp only [pending, hs])
  | service t =>
      simp only [hs] at hwf hsync htail hin hreq ⊢
      obtain ⟨rfl, ht, hwf⟩ := hwf
      refine ⟨hwf, fun s heq => Option.some.inj heq ▸ ht, hok, hsync, hlast, htail, hin, fun h => absurd h (Option.some_ne_none t), ?_⟩
      exact hbal.same (by simp only [unlabelled, hs]) (by simp only [pending, hs])
  | force =>
      simp only [hs] at hwf hsync htail hin hreq ⊢
      refine ⟨hwf, hcur, hok, hsync, hlast, htail, hin, hunset, ?_⟩
      exact hbal.same (by simp only [unlabelled, hs]) (by simp only [pending, hs])
  | char b =>
      simp only [hs] at hwf hsync htail hin hreq ⊢
      cases cur with
      | none =>
          have hgot : got = [] := hunset rfl
          subst hgot
          refine ⟨hwf.2, hcur, hok, hsync, hlast, htail, hin, fun _ => rfl, ?_⟩
          cases hbal with
          | level none_owed reads =>
              rw [hreq, if_pos rfl] at none_owed
              omega
          | owing s l one_owed answer got quiet_line lost =>
              refine .owing s l ?_ answer rfl ?_ lost
              · rw [hreq, if_pos rfl] at one_owed
                unfold requests
                simp only [if_true]
                omega
              · simp only [pending, hs, List.nil_append] at quiet_line
                exact quiet_line
      | some t =>
          refine ⟨hwf.2, hcur, hok, hsync, hlast, htail, hin, fun h => absurd h (Option.some_ne_none t),
            ?_⟩
          cases hbal with
          | level none_owed reads =>
              refine .level ?_ ?_
              · rw [hreq] at none_owed
                simp only [reduceCtorEq, if_false, Nat.zero_add] at none_owed
                unfold requests
                simp only [reduceCtorEq, if_false, Nat.add_zero]
                exact none_owed
              · simp only [pending, hs] at reads
                rw [← reads, List.append_assoc]
          | owing s l one_owed answer none_got quiet_line lost =>
              simp only [pending, hs, List.append_eq_nil_iff] at quiet_line
              have hgot : got = [] := none_got
              refine .owing s l ?_ answer ?_ quiet_line.2 lost
              · rw [hreq] at one_owed
                simp only [reduceCtorEq, if_false, Nat.zero_add] at one_owed
                unfold requests
                simp only [reduceCtorEq, if_false, Nat.add_zero]
                exact one_owed
              · simp only [hgot, quiet_line.1, List.append_nil]

/-- A restart of the receiver keeps the invariant when it makes at most one
byte be asked for, and the sender still has this byte. -/
theorem Linked.restartReceiver (h : Linked ok d asked)
    (hreq : d.restartReceiver.requests asked = 0 ∨
      d.restartReceiver.requests asked = 1 ∧ resend d.out d.last d.sending ≠ none) :
    Linked ok d.restartReceiver asked := by
  obtain ⟨hwf, hcur, hok, hsync, hlast, htail, hin, hunset, hbal⟩ := h
  have hpend : pending none false (stale d.line) = [] := pending_stale none false d.line
  refine ⟨?_, fun s hs => absurd hs (Option.some_ne_none s).symm, hok, ?_, hlast, ?_, ?_,
    fun _ => rfl, ?_⟩
  · exact (wellFormed_stale false d.line).mpr hwf.forget
  · intro s hs
    simp only [Dir.restartReceiver, finalService_stale]
    rcases finalService_forget d.cur d.line with hnone | hsame
    · exact .inl hnone
    · rw [hsame]
      exact hsync s hs
  · intro hesc
    simp only [Dir.restartReceiver, finalEsc_stale] at hesc
    exact htail (finalEsc_of_forget hesc)
  · intro hi
    simp only [Dir.restartReceiver, finalEsc_stale, finalService_stale]
    rcases hin hi with hesc | hnone
    · by_cases hnew : finalEsc false d.line = true
      · exact .inl hnew
      · rw [Bool.not_eq_true] at hnew
        cases hd : d.esc with
        | false =>
            rw [hd, hnew] at hesc
            cases hesc
        | true =>
            rw [hd] at hesc hwf
            exact .inr (finalService_of_forget_escape hwf hesc hnew)
    · rcases finalService_forget d.cur d.line with hnone' | hsame
      · exact .inr hnone'
      · exact .inr (hsame.trans hnone)
  · rcases hreq with hzero | ⟨hone, hanswer⟩
    · exact .level hzero (by simp only [Dir.restartReceiver, hpend, List.append_nil])
    · obtain ⟨⟨s, l⟩, hsl⟩ := Option.ne_none_iff_exists'.mp hanswer
      exact .owing s l hone hsl rfl hpend rfl

/-- A restart of the sender keeps the invariant when nothing was asked for and
it does not separate an escaped character from its escape character. -/
theorem Linked.restartSender (h : Linked ok d asked) (hzero : d.requests asked = 0)
    (hesc : finalEsc d.esc d.line = false) : Linked ok d.restartSender asked := by
  obtain ⟨hwf, hcur, hok, hsync, hlast, htail, hin, hunset, hbal⟩ := h
  refine ⟨hwf, hcur, ?_, ?_, ?_, ?_, ?_, hunset, ?_⟩
  · rintro s (hs | hs)
    · cases hs
    · cases hs
  · intro s hs
    cases hs
  · intro l hl
    cases hl
  · intro ht
    exact absurd (hesc.symm.trans ht) Bool.false_ne_true
  · rintro ⟨id, data, hi⟩
    cases hi
  · cases hbal with
    | level none_owed reads => exact .level none_owed reads
    | owing s l one_owed =>
        rw [hzero] at one_owed
        cases one_owed

/-- An undisturbed send. -/
def send (d : Dir) (id data : UInt8) : Dir :=
  { d with
    out := some id
    last := some (sentAs data)
    fresh := true
    line := d.line ++ cells true (messageBytes d.out id data)
    sent := d.sent ++ [(id, data)] }

/-- An undisturbed send keeps the invariant when nothing was asked for. -/
theorem Linked.send (h : Linked ok d asked) (hidle : d.sending = none) {id : UInt8} (hid : ok id)
    (hrange : (SERMUX_SERVICE_ID_FIRST ≤ id && id ≤ SERMUX_SERVICE_ID_LAST) = true)
    (hzero : d.requests asked = 0) (data : UInt8) : Linked ok (d.send id data) asked := by
  have hstart := h.start hidle hid hrange (.inr hzero) data
  have hstill : (d.start id data).requests asked = 0 := by
    unfold requests at hzero ⊢
    simp only [Dir.start, unlabelled_append]
    by_cases hout : d.out = some id
    · simp only [hout, ne_eq, not_true_eq_false, if_false]
      exact hzero
    · simp only [hout, ne_eq, not_false_eq_true, if_true, cells, List.map_cons, List.map_nil,
        unlabelled, symbol_service hrange]
      exact hzero
  have hlast := hstart.advance rfl fun _ => hstill
  have hemit := hlast.advance rfl (by intro h; cases h)
  by_cases hneeds : needsEscape data = true
  · have hadv : ∀ d : Dir, d.advance ⟨.emitData, id, data⟩ =
        { d with
          line := d.line ++ cells true [SERMUX_ESCAPE_CHAR]
          sending := some ⟨.emitEscaped, id, data⟩ } := fun d => if_pos hneeds
    rw [hadv] at hemit
    have hchar := hemit.advance rfl (by intro h; cases h)
    have hesc := hchar.advance rfl (by intro h; cases h)
    have hdone := hesc.advance rfl (by intro h; cases h)
    have hsent : sentAs data = ⟨true, data ^^^ SERMUX_ESCAPE_XOR_MASK⟩ := by
      rw [sentAs, if_pos hneeds]
    have hline : d.line ++ cells true (messageBytes d.out id data) =
        d.line ++ cells true (if d.out ≠ some id then [id] else []) ++
          cells true [SERMUX_ESCAPE_CHAR] ++
          cells true [data ^^^ SERMUX_ESCAPE_XOR_MASK] := by
      simp only [messageBytes, hsent, LastSent.bytes, if_true, cells, List.map_append,
        List.append_assoc, List.map_cons, List.map_nil, List.singleton_append]
    rw [Dir.send, hline, hsent]
    cases d
    cases hidle
    exact hdone
  · have hadv : ∀ d : Dir, d.advance ⟨.emitData, id, data⟩ =
        { d with
          line := d.line ++ cells true [data]
          sending := some ⟨.setOut, id, data⟩
          sent := d.sent ++ [(id, data)]
          fresh := true } := fun d => if_neg hneeds
    rw [hadv] at hemit
    have hdone := hemit.advance rfl (by intro h; cases h)
    have hsent : sentAs data = ⟨false, data⟩ := by
      rw [sentAs, if_neg hneeds]
    have hline : d.line ++ cells true (messageBytes d.out id data) =
        d.line ++ cells true (if d.out ≠ some id then [id] else []) ++ cells true [data] := by
      simp only [messageBytes, hsent, LastSent.bytes, Bool.false_eq_true, if_false, cells,
        List.map_append, List.append_assoc]
    rw [Dir.send, hline, hsent]
    cases d
    cases hidle
    exact hdone

/-- In the beginning nothing is on the line. -/
theorem linked_init (ok : UInt8 → Prop) :
    Linked ok ⟨none, false, none, none, false, none, [], [], []⟩ 0 := by
  refine ⟨trivial, ?_, ?_, ?_, ?_, ?_, ?_, fun _ => rfl, .level rfl rfl⟩
  · intro s hs
    cases hs
  · rintro s (hs | hs)
    · cases hs
    · cases hs
  · intro s hs
    cases hs
  · intro l hl
    cases hl
  · intro hesc
    cases hesc
  · rintro ⟨id, data, hi⟩
    cases hi

/-- What was delivered is the beginning of what was sent, and all of it once
nothing is in flight. -/
theorem Linked.delivered (h : Linked ok d asked) :
    d.got <+: d.sent ∧ (d.line = [] → asked = 0 → d.got = d.sent) := by
  cases h.balanced with
  | level none_owed reads =>
      refine ⟨⟨_, reads⟩, fun hline _ => ?_⟩
      rw [hline] at reads
      exact (List.append_nil d.got).symm.trans reads
  | owing s l one_owed answer got quiet_line lost =>
      refine ⟨got ▸ List.nil_prefix, fun hline hasked => ?_⟩
      unfold requests at one_owed
      rw [hline, hasked] at one_owed
      cases one_owed

end Dir

end Sermux
