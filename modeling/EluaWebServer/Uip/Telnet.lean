import EluaWebServer.Uip.Receive
import EluaWebServer.Lib.Scanner

/-!
# Telnet commands and segments

The console over TCP receives what a telnet client sends.  Each segment is searched for
telnet commands on its own, from its first byte on.  Next to the application runs what the
segments have brought and what the calls have been given: it is compared with the commands
removed from the stream as a whole.
-/

namespace Uip

open AppState Buffer

/-! ## The commands in a stream -/

/-- What the next byte belongs to. -/
inductive TelnetState where
  | text
  /-- It follows `TELNET_IAC_CHAR`. -/
  | command
  /-- It is the option of a command of three bytes. -/
  | option
  deriving DecidableEq

/-- Commands are removed, except that the end of file becomes a character. -/
def telnetStep : TelnetState → UInt8 → TelnetState × List UInt8
  | .text, b => if b = TELNET_IAC_CHAR then (.command, []) else (.text, [b])
  | .command, b =>
      if TELNET_IAC_3B_FIRST ≤ b ∧ b ≤ TELNET_IAC_3B_LAST then (.option, [])
      else (.text, if b = TELNET_EOF then [STD_CTRLZ_CODE] else [])
  | .option, _ => (.text, [])

def telnetScanner : Scanner TelnetState UInt8 UInt8 := ⟨telnetStep⟩

/-- A stream as a whole, without its commands. -/
def stripped (stream : List UInt8) : List UInt8 := telnetScanner.out .text stream

/-- What the end of the bytes leaves open. -/
def pending (bytes : List UInt8) : TelnetState := telnetScanner.after .text bytes

section

variable {b d : UInt8} {bytes : List UInt8}

theorem stripped_char (hb : b ≠ TELNET_IAC_CHAR) :
    stripped (b :: bytes) = b :: stripped bytes ∧ pending (b :: bytes) = pending bytes := by
  have hstep : telnetScanner.step .text b = (.text, [b]) := if_neg hb
  constructor
  · rw [stripped, Scanner.out_cons, hstep]
    rfl
  · rw [pending, Scanner.after_cons, hstep]
    rfl

theorem pending_iac : pending [TELNET_IAC_CHAR] = .command := rfl

/-- A command of three bytes: what follows the option is text. -/
theorem stripped_3b (hd : TELNET_IAC_3B_FIRST ≤ d ∧ d ≤ TELNET_IAC_3B_LAST) :
    stripped (TELNET_IAC_CHAR :: d :: bytes) = stripped bytes.tail ∧
      pending (TELNET_IAC_CHAR :: d :: bytes) = telnetScanner.after .option bytes := by
  have hstep : telnetScanner.step .command d = (.option, []) := if_pos hd
  have hiac : telnetScanner.step .text TELNET_IAC_CHAR = (.command, []) := rfl
  constructor
  · rw [stripped, Scanner.out_cons, hiac, Scanner.out_cons, hstep]
    cases bytes with
    | nil => rfl
    | cons b bytes => rfl
  · rw [pending, Scanner.after_cons, hiac, Scanner.after_cons, hstep]

theorem stripped_2b (hd : ¬(TELNET_IAC_3B_FIRST ≤ d ∧ d ≤ TELNET_IAC_3B_LAST)) :
    stripped (TELNET_IAC_CHAR :: d :: bytes) =
        (if d = TELNET_EOF then [STD_CTRLZ_CODE] else []) ++ stripped bytes ∧
      pending (TELNET_IAC_CHAR :: d :: bytes) = pending bytes := by
  have hstep : telnetScanner.step .command d =
      (.text, if d = TELNET_EOF then [STD_CTRLZ_CODE] else []) := if_neg hd
  have hiac : telnetScanner.step .text TELNET_IAC_CHAR = (.command, []) := rfl
  constructor
  · rw [stripped, Scanner.out_cons, hiac, Scanner.out_cons, hstep]
    rfl
  · rw [pending, Scanner.after_cons, hiac, Scanner.after_cons, hstep]
    rfl

theorem after_option (h : bytes ≠ []) :
    telnetScanner.after .option bytes = pending bytes.tail := by
  cases bytes with
  | nil => exact absurd rfl h
  | cons b bytes => rfl

end

/-! ## One segment -/

/-- The bytes from `uip_appdata` on are those that have been received, and no others. -/
def Event.exact (e : Event) : Event :=
  { e with appdata := e.data, datalen_le := Nat.le_of_eq e.length_data.symm }

section

variable {e : Event} {maxsize : Int} {orig n i p : Nat} {mem : List UInt8}

theorem telnetLoop_end (h : e.datalen ≤ i) :
    telnetLoop e maxsize orig n i mem p = some (mem, p) := by
  cases n with
  | zero => rfl
  | succ n =>
      have hcond : ¬(i < e.datalen ∧ ((p - orig : Nat) : Int) < maxsize) := by omega
      rw [telnetLoop, if_neg hcond]

/-- A turn of the loop with room for what is left. -/
theorem telnetLoop_turn {d : UInt8} (hi : i < e.datalen) (hd : e.appdata[i]? = some d)
    (hroom : (e.datalen : Int) ≤ maxsize) (hpi : p - orig ≤ i) (hp : p < mem.length) :
    telnetLoop e maxsize orig (n + 1) i mem p =
      if d ≠ TELNET_IAC_CHAR then telnetLoop e maxsize orig n (i + 1) (mem.set p d) (p + 1)
      else
        (e.appdata[i + 1]?).bind fun d =>
          if TELNET_IAC_3B_FIRST ≤ d ∧ d ≤ TELNET_IAC_3B_LAST then
            telnetLoop e maxsize orig n (i + 3) mem p
          else if d = TELNET_EOF then
            telnetLoop e maxsize orig n (i + 2) (mem.set p STD_CTRLZ_CODE) (p + 1)
          else telnetLoop e maxsize orig n (i + 2) mem p := by
  have hcond : i < e.datalen ∧ ((p - orig : Nat) : Int) < maxsize := by omega
  have hstore : ∀ x, store mem p x = some (mem.set p x) := fun x => if_pos hp
  rw [telnetLoop, if_pos hcond, hd]
  simp only [Option.bind_some, hstore]

theorem Event.data_drop (hi : i < e.datalen) :
    ∃ d, e.appdata[i]? = some d ∧ e.data.drop i = d :: e.data.drop (i + 1) := by
  have hlen : i < e.data.length := by rw [e.length_data]; exact hi
  refine ⟨e.data[i], ?_, List.drop_eq_getElem_cons hlen⟩
  have hget : e.data[i]? = some e.data[i] := List.getElem?_eq_getElem hlen
  rw [← hget, Event.data, List.getElem?_take_of_lt hi]

theorem Event.data_drop_end (hi : e.datalen ≤ i) : e.data.drop i = [] :=
  List.drop_of_length_le (by rw [e.length_data]; exact hi)

theorem pending_drop_tail (hwithin : telnetScanner.after .option (e.data.drop i) ≠ .command) :
    pending (e.data.drop (i + 1)) ≠ .command := by
  rw [← List.tail_drop]
  by_cases hnil : e.data.drop i = []
  · rw [hnil]
    decide
  · rwa [after_option hnil] at hwithin

theorem stored_eq (hp : p < mem.length) (x : UInt8) (bytes : List UInt8) :
    some (splice (mem.set p x) (p + 1) bytes, p + 1 + bytes.length) =
      some (splice mem p (x :: bytes), p + (x :: bytes).length) := by
  rw [splice_cons hp, List.length_cons, Nat.add_assoc, Nat.add_comm 1]

/-- The loop when no command is cut off behind its first byte. -/
theorem telnetLoop_eq (hroom : (e.datalen : Int) ≤ maxsize) (hmem : orig + e.datalen ≤ mem.length)
    (hn : e.datalen ≤ i + n) (hp : orig ≤ p) (hpi : p - orig ≤ i)
    (hwithin : pending (e.data.drop i) ≠ .command) :
    telnetLoop e maxsize orig n i mem p =
      some (splice mem p (stripped (e.data.drop i)),
        p + (stripped (e.data.drop i)).length) := by
  have hend : ∀ i n p mem, e.datalen ≤ i → telnetLoop e maxsize orig n i mem p =
      some (splice mem p (stripped (e.data.drop i)), p + (stripped (e.data.drop i)).length) := by
    intro i n p mem hi
    rw [telnetLoop_end hi, Event.data_drop_end hi]
    exact congrArg (fun m => some (m, p)) (splice_nil mem p).symm
  induction n generalizing i mem p with
  | zero => exact hend i 0 p mem hn
  | succ n ih =>
      rcases Nat.lt_or_ge i e.datalen with hi | hi
      · obtain ⟨d, hd, hdrop⟩ := Event.data_drop hi
        have hlt : p < mem.length := by omega
        have hset : ∀ x, orig + e.datalen ≤ (mem.set p x).length := by
          intro x
          rw [List.length_set]
          exact hmem
        rw [telnetLoop_turn hi hd hroom hpi hlt]
        rw [hdrop] at hwithin ⊢
        by_cases hiac : d = TELNET_IAC_CHAR
        · -- A command: its second byte has been received.
          subst hiac
          have hi₁ : i + 1 < e.datalen := by
            by_contra hge
            rw [Event.data_drop_end (by omega)] at hwithin
            exact hwithin pending_iac
          obtain ⟨c, hc, hdrop₁⟩ := Event.data_drop hi₁
          rw [if_neg (not_not.mpr rfl), hc, Option.bind_some]
          rw [hdrop₁] at hwithin ⊢
          by_cases h3b : TELNET_IAC_3B_FIRST ≤ c ∧ c ≤ TELNET_IAC_3B_LAST
          · obtain ⟨hout, hafter⟩ := @stripped_3b c (e.data.drop (i + 1 + 1)) h3b
            rw [hafter] at hwithin
            rw [if_pos h3b, hout, List.tail_drop]
            exact ih hmem (by omega) hp (by omega) (pending_drop_tail hwithin)
          · obtain ⟨hout, hafter⟩ := @stripped_2b c (e.data.drop (i + 1 + 1)) h3b
            rw [hafter] at hwithin
            rw [if_neg h3b, hout]
            by_cases heof : c = TELNET_EOF
            · rw [if_pos heof, if_pos heof,
                ih (hset _) (by omega) (by omega) (by omega) hwithin]
              exact stored_eq hlt _ _
            · rw [if_neg heof, if_neg heof]
              exact ih hmem (by omega) hp (by omega) hwithin
        · obtain ⟨hout, hafter⟩ := @stripped_char d (e.data.drop (i + 1)) hiac
          rw [hafter] at hwithin
          rw [if_pos hiac, hout, ih (hset d) (by omega) (by omega) (by omega) hwithin]
          exact stored_eq hlt _ _
      · exact hend i (n + 1) p mem hi

/-- The loop looks behind the bytes that have been received when they end behind the first
byte of a command. -/
theorem telnetLoop_outside (hexact : e.appdata.length = e.datalen)
    (hroom : (e.datalen : Int) ≤ maxsize) (hmem : orig + e.datalen ≤ mem.length)
    (hn : e.datalen ≤ i + n) (hp : orig ≤ p) (hpi : p - orig ≤ i)
    (hpending : pending (e.data.drop i) = .command) :
    telnetLoop e maxsize orig n i mem p = none := by
  have hstart : i < e.datalen := by
    by_contra hge
    rw [Event.data_drop_end (by omega)] at hpending
    cases hpending
  induction n generalizing i mem p with
  | zero => omega
  | succ n ih =>
      obtain ⟨d, hd, hdrop⟩ := Event.data_drop hstart
      have hlt : p < mem.length := by omega
      have hset : ∀ x, orig + e.datalen ≤ (mem.set p x).length := by
        intro x
        rw [List.length_set]
        exact hmem
      have hnext : ∀ i, pending (e.data.drop i) = .command → i < e.datalen := by
        intro i h
        by_contra hge
        rw [Event.data_drop_end (by omega)] at h
        cases h
      rw [telnetLoop_turn hstart hd hroom hpi hlt]
      rw [hdrop] at hpending
      by_cases hiac : d = TELNET_IAC_CHAR
      · subst hiac
        rw [if_neg (not_not.mpr rfl)]
        rcases Nat.lt_or_ge (i + 1) e.datalen with hi₁ | hi₁
        · obtain ⟨c, hc, hdrop₁⟩ := Event.data_drop hi₁
          rw [hc, Option.bind_some]
          rw [hdrop₁] at hpending
          by_cases h3b : TELNET_IAC_3B_FIRST ≤ c ∧ c ≤ TELNET_IAC_3B_LAST
          · rw [(stripped_3b h3b).2] at hpending
            have hne : e.data.drop (i + 1 + 1) ≠ [] := by
              intro hnil
              rw [hnil] at hpending
              cases hpending
            rw [after_option hne, List.tail_drop] at hpending
            rw [if_pos h3b]
            exact ih hmem (by omega) hp (by omega) hpending (hnext _ hpending)
          · rw [(stripped_2b h3b).2] at hpending
            rw [if_neg h3b]
            by_cases heof : c = TELNET_EOF
            · rw [if_pos heof]
              exact ih (hset _) (by omega) (by omega) (by omega) hpending (hnext _ hpending)
            · rw [if_neg heof]
              exact ih hmem (by omega) hp (by omega) hpending (hnext _ hpending)
        · -- The second byte is not there.
          rw [List.getElem?_eq_none (by omega)]
          rfl
      · rw [(stripped_char hiac).2] at hpending
        rw [if_pos hiac]
        exact ih (hset d) (by omega) (by omega) (by omega) hpending (hnext _ hpending)

/-- The handler when no command is cut off behind its first byte. -/
theorem telnetHandleInput_eq {s : EluaUipState} (hptr : s.ptr = .buffer mem p)
    (hroom : (e.datalen : Int) ≤ s.len) (hmem : (p : Int) + s.len ≤ mem.length)
    (hwithin : pending e.data ≠ .command) :
    eluaUipTelnetHandleInput s e = some (if stripped e.data = [] then (s, [])
      else ({ s with
        ptr := .buffer (splice mem p (stripped e.data)) (p + (stripped e.data).length)
        res := ELUA_NET_ERR_OK
        len := s.len - (stripped e.data).length
        state := ELUA_UIP_STATE_IDLE }, [.stop])) := by
  have hloop := @telnetLoop_eq e s.len p e.datalen 0 p mem hroom (by omega) (by omega)
    (Nat.le_refl p) (by omega) hwithin
  rw [List.drop_zero] at hloop
  unfold eluaUipTelnetHandleInput
  simp only [hptr, hloop, Option.map_some, Nat.add_sub_cancel_left]
  by_cases hnil : stripped e.data = []
  · have hsame : { s with ptr := .buffer mem p } = s := by rw [← hptr]
    simp [hnil, splice_nil, hsame]
  · have hpos : p < p + (stripped e.data).length := by
      have := List.length_pos_iff.mpr hnil
      omega
    rw [if_neg hnil, if_pos hpos]

theorem telnetHandleInput_outside {s : EluaUipState} (hptr : s.ptr = .buffer mem p)
    (hroom : (e.datalen : Int) ≤ s.len) (hmem : (p : Int) + s.len ≤ mem.length)
    (hpending : pending e.data = .command) : eluaUipTelnetHandleInput s e.exact = none := by
  have hdata : e.exact.data = e.data := List.take_of_length_le (Nat.le_of_eq e.length_data)
  have hloop := @telnetLoop_outside e.exact s.len p e.datalen 0 p mem e.length_data hroom
    (by change p + e.datalen ≤ _; omega) (by change e.datalen ≤ _; omega) (Nat.le_refl p) (by omega)
    (by rw [hdata]; exact hpending)
  unfold eluaUipTelnetHandleInput
  rw [hptr]
  change (telnetLoop e.exact s.len p e.datalen 0 mem p).map _ = none
  rw [hloop]
  rfl

end

/-! ## Runs -/

/-- The application, what the segments have brought, what has been stored for the calls, and
whether only bytes of the segments have been read. -/
structure TelnetRun where
  w : World
  stream : List UInt8
  delivered : List UInt8
  within : Bool

inductive TelnetAction where
  /-- `elua_net_recv` into a buffer, and the poll that restarts the connection. -/
  | recv (mem : List UInt8)
  | segment (e : Event)
  /-- The time of the call is over. -/
  | expire

/-- A segment comes while a call waits that has room for it. -/
def Fits (s : EluaUipState) (e : Event) : Prop :=
  s.state = ELUA_UIP_STATE_RECV_2 ∧ (e.datalen : Int) ≤ s.len ∧ e.newdata = true ∧
    e.connected = false ∧ e.terminal = false

instance (s : EluaUipState) (e : Event) : Decidable (Fits s e) :=
  inferInstanceAs (Decidable (_ ∧ _))

def restartEvent : Event := { Event.quiet 100 with poll := true }

/-- What has been stored from one place to another. -/
def stored : Ptr → Ptr → List UInt8
  | .buffer _ orig, .buffer mem p => slice mem orig (p - orig)
  | _, _ => []

/-- What cannot happen is skipped, and a segment without a call that has room. -/
def telnetRunStep (c : Config) (sockno : Nat) (g : TelnetRun) : TelnetAction → Option TelnetRun
  | .recv mem =>
      if (g.w.socket sockno).state = ELUA_UIP_STATE_IDLE ∧ mem ≠ [] then
        let w := g.w.set sockno (prepRecv (.buffer mem 0) mem.length ELUA_NET_NO_LASTCHAR false)
        (eluaUipAppcall c w sockno restartEvent).map fun (w, _) => { g with w := w }
      else some g
  | .segment e =>
      let s := g.w.socket sockno
      if Fits s e then
        (eluaUipAppcall c g.w sockno e).map fun (w, _) =>
          { w := w
            stream := g.stream ++ e.data
            delivered := g.delivered ++ stored s.ptr (w.socket sockno).ptr
            within := g.within && (eluaUipTelnetHandleInput s e.exact).isSome }
      else some g
  | .expire =>
      let s := g.w.socket sockno
      let s := { s with res := ELUA_NET_ERR_TIMEDOUT, state := ELUA_UIP_STATE_IDLE }
      some (if (g.w.socket sockno).state = ELUA_UIP_STATE_IDLE then g
        else { g with w := g.w.set sockno s })

def TelnetRun.start (w : World) : TelnetRun := ⟨w, [], [], true⟩

/-- The calls have been given the stream without its commands, and nothing has been read but
what has been received. -/
structure TelnetOk (g : TelnetRun) : Prop where
  delivered : g.delivered = stripped g.stream
  within : g.within = true

/-- The run is possible, and at its end the stream is right. -/
def EndsOk (c : Config) (sockno : Nat) (g : TelnetRun) (as : List TelnetAction) : Prop :=
  ∃ g', Transition.run (telnetRunStep c sockno) g as = some g' ∧ TelnetOk g'

/-- No command is cut off at the end of a segment. -/
def Uncut (sockno : Nat) (g : TelnetRun) : TelnetAction → Prop
  | .recv _ | .expire => True
  | .segment e => Fits (g.w.socket sockno) e → pending e.data = .text

instance (sockno : Nat) (g : TelnetRun) : (a : TelnetAction) → Decidable (Uncut sockno g a)
  | .recv _ | .expire => inferInstanceAs (Decidable True)
  | .segment e => inferInstanceAs (Decidable (Fits _ e → pending e.data = .text))

/-- There is no command in what comes. -/
def Plain : TelnetAction → Prop
  | .recv _ | .expire => True
  | .segment e => TELNET_IAC_CHAR ∉ e.data

/-- The console is connected, and a call that waits has a buffer. -/
structure Ready (c : Config) (sockno : Nat) (w : World) : Prop where
  configured : w.configured = true
  telnet : w.isTelnet c sockno = true
  call : (w.socket sockno).state = ELUA_UIP_STATE_IDLE ∨
    (w.socket sockno).state = ELUA_UIP_STATE_RECV_2 ∧
      ∃ mem p, (w.socket sockno).ptr = .buffer mem p ∧
        (p : Int) + (w.socket sockno).len ≤ mem.length

/-- What holds as long as no command has been cut off. -/
structure TelnetInv (c : Config) (sockno : Nat) (g : TelnetRun) : Prop where
  ready : Ready c sockno g.w
  ok : TelnetOk g
  uncut : pending g.stream = .text

section

variable {c : Config} {w : World} {sockno : Nat} {g : TelnetRun} {e : Event}

/-- The application gives the segment to the handler. -/
theorem appcall_segment (hconfigured : w.configured = true) (htelnet : w.isTelnet c sockno = true)
    (hfits : Fits (w.socket sockno) e) :
    eluaUipAppcall c w sockno e = (eluaUipTelnetHandleInput (w.socket sockno) e).map
      fun (s, calls) => (w.set sockno s, calls) := by
  obtain ⟨hstate, -, hnewdata, hconnected, hterminal⟩ := hfits
  unfold eluaUipAppcall
  simp [hconfigured, hconnected, hstate, hterminal, hnewdata, htelnet]

theorem recv_spec (hready : Ready c sockno g.w) (mem : List UInt8) :
    ∃ w', telnetRunStep c sockno g (.recv mem) = some { g with w := w' } ∧ Ready c sockno w' ∧
      ((g.w.socket sockno).state = ELUA_UIP_STATE_IDLE ∧ mem ≠ [] →
        (w'.socket sockno).state = ELUA_UIP_STATE_RECV_2 ∧
          (w'.socket sockno).len = mem.length) ∧
      (¬((g.w.socket sockno).state = ELUA_UIP_STATE_IDLE ∧ mem ≠ []) → w' = g.w) := by
  by_cases hbegin : (g.w.socket sockno).state = ELUA_UIP_STATE_IDLE ∧ mem ≠ []
  · -- The call fills in `s`, and the poll lets the data come.
    obtain ⟨s, hs⟩ : ∃ s, s = prepRecv (.buffer mem 0) mem.length ELUA_NET_NO_LASTCHAR false :=
      ⟨_, rfl⟩
    have hpoll : eluaUipAppcall c (g.w.set sockno s) sockno restartEvent =
        some ((g.w.set sockno s).set sockno { s with state := ELUA_UIP_STATE_RECV_2 },
          [.restart]) := by
      have hrecv := @appcall_recv c (g.w.set sockno s) sockno restartEvent hready.configured rfl
        (by rw [socket_set, hs]; rfl)
      rwa [socket_set] at hrecv
    refine ⟨(g.w.set sockno s).set sockno { s with state := ELUA_UIP_STATE_RECV_2 }, ?_, ?_, ?_,
      fun hnot => absurd hbegin hnot⟩
    · rw [telnetRunStep, if_pos hbegin]
      dsimp only
      rw [← hs, hpoll]
      rfl
    · refine ⟨hready.configured, hready.telnet, .inr ⟨?_, mem, 0, ?_, ?_⟩⟩
      · rw [socket_set]
      · rw [socket_set, hs]
        rfl
      · rw [socket_set, hs]
        exact Int.le_of_eq (Int.zero_add _)
    · intro _
      rw [socket_set, hs]
      exact ⟨rfl, rfl⟩
  · refine ⟨g.w, ?_, hready, fun h => absurd h hbegin, fun _ => rfl⟩
    rw [telnetRunStep, if_neg hbegin]

/-- A segment that is read without looking behind its end. -/
theorem segment_spec (hready : Ready c sockno g.w) (hfits : Fits (g.w.socket sockno) e)
    (hwithin : pending e.data ≠ .command) :
    ∃ w', telnetRunStep c sockno g (.segment e) =
        some ⟨w', g.stream ++ e.data, g.delivered ++ stripped e.data, g.within⟩ ∧
      Ready c sockno w' ∧ ((w'.socket sockno).state = ELUA_UIP_STATE_IDLE ∨ w' = g.w) := by
  obtain hidle | ⟨-, mem, p, hptr, hmem⟩ := hready.call
  · have hstate := hfits.1
    rw [hidle] at hstate
    cases hstate
  · have hroom := hfits.2.1
    have hdata : e.exact.data = e.data := List.take_of_length_le (Nat.le_of_eq e.length_data)
    have hexact : (eluaUipTelnetHandleInput (g.w.socket sockno) e.exact).isSome = true := by
      have hwithin' : pending e.exact.data ≠ .command := hdata.symm ▸ hwithin
      rw [@telnetHandleInput_eq e.exact p mem _ hptr hroom hmem hwithin']
      rfl
    have hhandler := telnetHandleInput_eq hptr hroom hmem hwithin
    by_cases hnil : stripped e.data = []
    · rw [if_pos hnil] at hhandler
      have happcall : eluaUipAppcall c g.w sockno e = some (g.w, []) := by
        rw [appcall_segment hready.configured hready.telnet hfits, hhandler, Option.map_some]
        exact congrArg (fun w => some (w, [])) (set_eq_self rfl)
      refine ⟨g.w, ?_, hready, .inr rfl⟩
      rw [telnetRunStep]
      dsimp only
      rw [if_pos hfits, happcall, Option.map_some, hexact, Bool.and_true, hnil, hptr]
      simp [stored, slice]
    · rw [if_neg hnil] at hhandler
      obtain ⟨s', hs'⟩ : ∃ s', s' = { g.w.socket sockno with
          ptr := .buffer (splice mem p (stripped e.data)) (p + (stripped e.data).length)
          res := ELUA_NET_ERR_OK
          len := (g.w.socket sockno).len - (stripped e.data).length
          state := ELUA_UIP_STATE_IDLE } := ⟨_, rfl⟩
      have hstored : stored (g.w.socket sockno).ptr s'.ptr = stripped e.data := by
        rw [hptr, hs', stored, Nat.add_sub_cancel_left]
        exact slice_splice (by omega)
      have happcall : eluaUipAppcall c g.w sockno e = some (g.w.set sockno s', [.stop]) := by
        rw [appcall_segment hready.configured hready.telnet hfits, hhandler, ← hs']
        rfl
      refine ⟨g.w.set sockno s', ?_, ⟨hready.configured, hready.telnet, .inl ?_⟩, .inl ?_⟩
      · rw [telnetRunStep]
        dsimp only
        rw [if_pos hfits, happcall, Option.map_some, hexact, Bool.and_true, socket_set, hstored]
      · rw [socket_set, hs']
      · rw [socket_set, hs']

/-- A segment that is not the only thing that is read. -/
theorem segment_outside {g' : TelnetRun} (hready : Ready c sockno g.w)
    (hfits : Fits (g.w.socket sockno) e) (hpending : pending e.data = .command)
    (hstep : telnetRunStep c sockno g (.segment e) = some g') : g'.within = false := by
  obtain hidle | ⟨-, mem, p, hptr, hmem⟩ := hready.call
  · have hstate := hfits.1
    rw [hidle] at hstate
    cases hstate
  · rw [telnetRunStep] at hstep
    dsimp only at hstep
    rw [if_pos hfits, telnetHandleInput_outside hptr hfits.2.1 hmem hpending] at hstep
    obtain ⟨r, -, hr⟩ := Option.map_eq_some_iff.mp hstep
    rw [← hr]
    exact Bool.and_false _

/-- Nothing that is plain is left open or left out. -/
theorem stripped_plain {bytes : List UInt8} (h : TELNET_IAC_CHAR ∉ bytes) :
    stripped bytes = bytes ∧ pending bytes = .text := by
  induction bytes with
  | nil => exact ⟨rfl, rfl⟩
  | cons b bytes ih =>
      obtain ⟨hb, hbytes⟩ : TELNET_IAC_CHAR ≠ b ∧ TELNET_IAC_CHAR ∉ bytes := by simpa using h
      obtain ⟨hout, hafter⟩ := @stripped_char b bytes (Ne.symm hb)
      obtain ⟨hout', hafter'⟩ := ih hbytes
      exact ⟨by rw [hout, hout'], hafter.trans hafter'⟩

theorem uncut_of_plain {a : TelnetAction} (h : Plain a) : Uncut sockno g a := by
  cases a with
  | recv mem => trivial
  | segment e => exact fun _ => (stripped_plain h).2
  | expire => trivial

/-- A segment that ends between two commands. -/
theorem telnetOk_append {bytes : List UInt8} {w' : World} (hok : TelnetOk g)
    (huncut : pending g.stream = .text) :
    TelnetOk ⟨w', g.stream ++ bytes, g.delivered ++ stripped bytes, g.within⟩ ∧
      pending (g.stream ++ bytes) = pending bytes := by
  have hafter : telnetScanner.after .text g.stream = .text := huncut
  refine ⟨⟨?_, hok.within⟩, ?_⟩
  · change g.delivered ++ stripped bytes = stripped (g.stream ++ bytes)
    rw [hok.delivered, stripped, stripped, stripped, Scanner.out_append, hafter]
  · rw [pending, Scanner.after_append, hafter]
    rfl

/-- **One step.** -/
theorem telnetRunStep_spec (hinv : TelnetInv c sockno g) {a : TelnetAction}
    (huncut : Uncut sockno g a) :
    ∃ g', telnetRunStep c sockno g a = some g' ∧ TelnetInv c sockno g' := by
  cases a with
  | recv mem =>
      obtain ⟨w', hstep, hready, -⟩ := recv_spec hinv.ready mem
      exact ⟨_, hstep, hready, ⟨hinv.ok.delivered, hinv.ok.within⟩, hinv.uncut⟩
  | segment e =>
      by_cases hfits : Fits (g.w.socket sockno) e
      · have hpending := huncut hfits
        have hwithin : pending e.data ≠ .command := by
          rw [hpending]
          decide
        obtain ⟨w', hstep, hready, -⟩ := segment_spec hinv.ready hfits hwithin
        obtain ⟨hok, hafter⟩ := @telnetOk_append g e.data w' hinv.ok hinv.uncut
        exact ⟨_, hstep, hready, hok, hafter.trans hpending⟩
      · exact ⟨g, by rw [telnetRunStep]; exact if_neg hfits, hinv⟩
  | expire =>
      refine ⟨_, rfl, ?_⟩
      split
      next => exact hinv
      next =>
        refine ⟨⟨hinv.ready.configured, hinv.ready.telnet, .inl ?_⟩,
          ⟨hinv.ok.delivered, hinv.ok.within⟩, hinv.uncut⟩
        dsimp only
        rw [socket_set]

theorem endsOk_cons {a : TelnetAction} {as : List TelnetAction} {g' : TelnetRun}
    (hstep : telnetRunStep c sockno g a = some g') :
    EndsOk c sockno g (a :: as) ↔ EndsOk c sockno g' as := by
  rw [EndsOk, Transition.run, hstep, Option.bind_some]
  rfl

/-- A segment that ends behind `IAC`. -/
theorem not_endsOk_command (hinv : TelnetInv c sockno g) (hfits : Fits (g.w.socket sockno) e)
    (hopen : pending e.data = .command) : ¬EndsOk c sockno g [.segment e] := by
  intro hends
  obtain ⟨g', hrun, hok⟩ := hends
  rw [Transition.run, Option.bind_eq_some_iff] at hrun
  obtain ⟨g₁, hstep, hg₁⟩ := hrun
  obtain rfl := Option.some.inj hg₁
  have hwithin : g₁.within = false := segment_outside hinv.ready hfits hopen hstep
  rw [hok.within] at hwithin
  cases hwithin

/-- Behind a segment that fits there is room for one more character, if need be after a call. -/
theorem exists_recv_fits (hready : Ready c sockno g.w)
    (hcall : (g.w.socket sockno).state = ELUA_UIP_STATE_IDLE ∨
      Fits (g.w.socket sockno) e ∧ e.data ≠ []) :
    ∃ w', telnetRunStep c sockno g (.recv [0]) = some { g with w := w' } ∧ Ready c sockno w' ∧
      Fits (w'.socket sockno) (dataEvent [65]) := by
  obtain ⟨w', hstep, hready', hbegin, hskip⟩ := recv_spec hready [0]
  refine ⟨w', hstep, hready', ?_⟩
  have hroom : (w'.socket sockno).state = ELUA_UIP_STATE_RECV_2 ∧
      1 ≤ (w'.socket sockno).len := by
    cases hcall with
    | inl hidle =>
        obtain ⟨hstate, hlen⟩ := hbegin ⟨hidle, List.cons_ne_nil 0 []⟩
        exact ⟨hstate, Int.le_of_eq hlen.symm⟩
    | inr hcall =>
        obtain ⟨⟨hstate, hlen, -⟩, hne⟩ := hcall
        have hsame : w' = g.w := by
          refine hskip ?_
          intro h
          rw [hstate] at h
          cases h.1
        have hpos : 0 < e.data.length := List.length_pos_of_ne_nil hne
        rw [e.length_data] at hpos
        rw [hsame]
        exact ⟨hstate, by omega⟩
  exact ⟨hroom.1, hroom.2, rfl, rfl, rfl⟩

/-- A segment that ends in front of the option: the character behind it is not given. -/
theorem not_endsOk_option (hinv : TelnetInv c sockno g) (hfits : Fits (g.w.socket sockno) e)
    (hopen : pending e.data = .option) :
    ¬EndsOk c sockno g [.segment e, .recv [0], .segment (dataEvent [65])] := by
  have hwithin : pending e.data ≠ .command := by
    rw [hopen]
    decide
  have hne : e.data ≠ [] := by
    intro hnil
    rw [hnil] at hopen
    cases hopen
  have hplain : pending (dataEvent [65]).data ≠ .command := by decide
  obtain ⟨w₁, hstep₁, hready₁, hcall₁⟩ := segment_spec hinv.ready hfits hwithin
  obtain ⟨hok₁, hafter₁⟩ := @telnetOk_append g e.data w₁ hinv.ok hinv.uncut
  obtain ⟨w₂, hstep₂, hready₂, hfits₂⟩ := @exists_recv_fits c sockno
    ⟨w₁, g.stream ++ e.data, g.delivered ++ stripped e.data, g.within⟩ e hready₁
    (hcall₁.imp_right fun (hsame : w₁ = g.w) => ⟨hsame.symm ▸ hfits, hne⟩)
  obtain ⟨w₃, hstep₃, -⟩ := @segment_spec c sockno
    ⟨w₂, g.stream ++ e.data, g.delivered ++ stripped e.data, g.within⟩ (dataEvent [65])
    hready₂ hfits₂ hplain
  intro hends
  rw [endsOk_cons hstep₁, endsOk_cons hstep₂, endsOk_cons hstep₃] at hends
  obtain ⟨g', hrun, hok⟩ := hends
  obtain rfl := Option.some.inj hrun
  -- The character is taken for the option of the command.
  have hoption : stripped ((g.stream ++ e.data) ++ [65]) = stripped (g.stream ++ e.data) := by
    rw [stripped, Scanner.out_append]
    change stripped _ ++ telnetScanner.out (pending (g.stream ++ e.data)) [65] = _
    rw [hafter₁, hopen]
    exact List.append_nil _
  have hlength : (g.delivered ++ stripped e.data ++ [65]).length =
      (g.delivered ++ stripped e.data).length := by
    have hdelivered : g.delivered ++ stripped e.data ++ [65] =
        stripped ((g.stream ++ e.data) ++ [65]) := hok.delivered
    have hbefore : g.delivered ++ stripped e.data = stripped (g.stream ++ e.data) :=
      hok₁.delivered
    rw [hdelivered, hoption, hbefore]
  rw [List.length_append, List.length_singleton] at hlength
  omega

/-- **Where a command is cut off.**  Either the segment is not the only thing that is read, or
plain text behind it is not given as it is. -/
theorem exists_not_endsOk (hinv : TelnetInv c sockno g) {a : TelnetAction}
    (hcut : ¬Uncut sockno g a) :
    ∃ more, (∀ b ∈ more, Plain b) ∧ ¬EndsOk c sockno g (a :: more) := by
  cases a with
  | recv mem => exact absurd trivial hcut
  | expire => exact absurd trivial hcut
  | segment e =>
      obtain ⟨hfits, hpending⟩ : Fits (g.w.socket sockno) e ∧ pending e.data ≠ .text :=
        Classical.not_imp.mp hcut
      cases hopen : pending e.data with
      | text => exact absurd hopen hpending
      | command => exact ⟨[], List.forall_mem_nil _, not_endsOk_command hinv hfits hopen⟩
      | option =>
          refine ⟨[.recv [0], .segment (dataEvent [65])], ?_, not_endsOk_option hinv hfits hopen⟩
          have hplain : TELNET_IAC_CHAR ∉ (dataEvent [65]).data := by decide
          rw [List.forall_mem_cons, List.forall_mem_singleton]
          exact ⟨trivial, hplain⟩

/-- Plain text goes through. -/
theorem endsOk_of_plain (hinv : TelnetInv c sockno g) {as : List TelnetAction}
    (hplain : ∀ a ∈ as, Plain a) : EndsOk c sockno g as := by
  induction as generalizing g with
  | nil => exact ⟨g, rfl, hinv.ok⟩
  | cons a as ih =>
      obtain ⟨ha, has⟩ := List.forall_mem_cons.mp hplain
      obtain ⟨g', hstep, hinv'⟩ := telnetRunStep_spec hinv (uncut_of_plain ha)
      rw [endsOk_cons hstep]
      exact ih hinv' has

theorem endsOk_take_iff (hinv : TelnetInv c sockno g) (as : List TelnetAction) :
    (∀ n more, (∀ a ∈ more, Plain a) → EndsOk c sockno g (as.take n ++ more)) ↔
      Transition.Conforming (telnetRunStep c sockno) (Uncut sockno) g as := by
  induction as generalizing g with
  | nil =>
      apply iff_of_true _ trivial
      intro n more hplain
      rw [List.take_nil]
      exact endsOk_of_plain hinv hplain
  | cons a as ih =>
      constructor
      · intro hends
        have huncut : Uncut sockno g a := by
          by_contra hcut
          obtain ⟨more, hplain, hnot⟩ := exists_not_endsOk hinv hcut
          exact hnot (hends 1 more hplain)
        obtain ⟨g', hstep, hinv'⟩ := telnetRunStep_spec hinv huncut
        refine ⟨huncut, ?_⟩
        intro g₁ hg₁
        obtain rfl := Option.some.inj (hstep.symm.trans hg₁)
        apply (ih hinv').mp
        intro n more hplain
        exact (endsOk_cons hstep).mp (hends (n + 1) more hplain)
      · intro hconforming n more hplain
        obtain ⟨huncut, hrest⟩ := hconforming
        cases n with
        | zero => exact endsOk_of_plain hinv hplain
        | succ n =>
            obtain ⟨g', hstep, hinv'⟩ := telnetRunStep_spec hinv huncut
            exact (endsOk_cons hstep).mpr ((ih hinv').mpr (hrest g' hstep) n more hplain)

/-- **Segments.**  A run gives the calls the stream without its commands, and goes on to do so
whenever plain text follows, exactly if no command is cut off at the end of a segment. -/
theorem endsOk_iff_uncut (hready : Ready c sockno w) (as : List TelnetAction) :
    (∀ n more, (∀ a ∈ more, Plain a) →
        EndsOk c sockno (.start w) (as.take n ++ more)) ↔
      Transition.Conforming (telnetRunStep c sockno) (Uncut sockno) (.start w) as :=
  endsOk_take_iff ⟨hready, ⟨rfl, rfl⟩, rfl⟩ as

end

/-! ## A command, whole and in two segments -/

/-- The telnet client is connected. -/
def telnetWorld : World := { receiveWorld with telnetSocket := 0 }

theorem ready_telnetWorld : Ready sampleConfig 0 telnetWorld := ⟨rfl, rfl, .inl rfl⟩

/-- A call for each segment. -/
def telnetCalls (segments : List (List UInt8)) : List TelnetAction :=
  segments.flatMap fun bytes => [.recv [0, 0, 0, 0], .segment (dataEvent bytes)]

theorem endsOk_whole :
    Transition.Conforming (telnetRunStep sampleConfig 0) (Uncut 0) (.start telnetWorld)
      (telnetCalls [[97, 255, 251, 1], [98]]) ∧
    ∀ n more, (∀ a ∈ more, Plain a) → EndsOk sampleConfig 0 (.start telnetWorld)
      ((telnetCalls [[97, 255, 251, 1], [98]]).take n ++ more) := by
  have hconforming : Transition.Conforming (telnetRunStep sampleConfig 0) (Uncut 0)
      (.start telnetWorld) (telnetCalls [[97, 255, 251, 1], [98]]) := by decide
  exact ⟨hconforming, (endsOk_iff_uncut ready_telnetWorld _).mpr hconforming⟩

/-- The option of a command in the next segment. -/
theorem not_endsOk_cut :
    ¬EndsOk sampleConfig 0 (.start telnetWorld) (telnetCalls [[97, 255, 251], [1, 98]]) := by
  intro hends
  obtain ⟨g, hrun, hok⟩ := hends
  obtain rfl := Option.some.inj hrun
  have hdelivered := hok.delivered
  revert hdelivered
  decide

end Uip
