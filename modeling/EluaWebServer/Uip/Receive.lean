import EluaWebServer.Uip.Appcall
import EluaWebServer.Lib.Transition

/-!
# Receiving over TCP

Calls of `elua_net_recv` and `elua_net_recvbuf` on one connection, one after the other,
while uIP accepts data.  Next to the application runs what has been accepted, and during
which call.
-/

namespace Uip

open AppState Buffer

/-! ## What a call is meant to return -/

/-- The data of a call without its delimiter and the carriage returns. -/
def meant : Option UInt8 → List UInt8 → List UInt8
  | none, bytes => bytes
  | some r, bytes => bytes.filter fun b => decide (b ≠ r ∧ b ≠ 13)

/-- A call reads up to its delimiter. -/
def DelimiterLast : Option UInt8 → List UInt8 → Prop
  | none, _ => True
  | some r, bytes => r ∉ bytes.dropLast

instance : (readto : Option UInt8) → (bytes : List UInt8) → Decidable (DelimiterLast readto bytes)
  | none, _ => inferInstanceAs (Decidable True)
  | some r, bytes => inferInstanceAs (Decidable (r ∉ bytes.dropLast))

/-- The delimiter, as a number. -/
def readtoCode (c : Config) : Option UInt8 → Int
  | none => ELUA_NET_NO_LASTCHAR
  | some r => charValue c r

theorem meant_append (readto : Option UInt8) (xs ys : List UInt8) :
    meant readto (xs ++ ys) = meant readto xs ++ meant readto ys := by
  cases readto with
  | none => rfl
  | some r => exact List.filter_append xs ys

theorem charValue_inj {c : Config} {a b : UInt8} : charValue c a = charValue c b ↔ a = b := by
  constructor
  · intro h
    have ha := a.toNat_lt
    have hb := b.toNat_lt
    have hnat : a.toNat = b.toNat := by
      unfold charValue at h
      split_ifs at h <;> simp at * <;> omega
    exact UInt8.toNat_inj.mp hnat
  · exact congrArg _

/-! ## The destination -/

/-- Whether `res` says that `ptr` is a `luaL_Buffer`. -/
def Ptr.flag : Ptr → UInt8
  | .luaBuffer _ => 1
  | _ => 0

/-- What a call has stored. -/
def Ptr.Holds (maxsize : Int) (bytes : List UInt8) : Ptr → Prop
  | .luaBuffer added => added = bytes
  | .buffer mem p => p = 0 ∧ (mem.length : Int) = maxsize ∧ mem.take bytes.length = bytes
  | _ => False

/-- The characters that `readtoLoop` keeps. -/
def putChars (res : UInt8) : Nat → List UInt8 → Ptr → Option Ptr
  | _, [], ptr => some ptr
  | dest, ch :: rest, ptr => (putChar res dest ch ptr).bind (putChars res (dest + 1) rest)

section

variable {c : Config} {res : UInt8} {ptr : Ptr} {maxsize : Int} {bytes : List UInt8}

theorem putChars_luaBuffer (hres : res ≠ 0) (dest : Nat) (added xs : List UInt8) :
    putChars res dest xs (.luaBuffer added) = some (.luaBuffer (added ++ xs)) := by
  induction xs generalizing dest added with
  | nil => rw [List.append_nil]; rfl
  | cons x xs ih =>
      rw [putChars, putChar, if_pos hres, Option.bind_some, ih, List.append_assoc]
      rfl

theorem putChars_buffer (dest : Nat) (mem xs : List UInt8) (p : Nat) :
    putChars 0 dest xs (.buffer mem p) = (storeAll mem dest xs).map (.buffer · p) := by
  induction xs generalizing dest mem with
  | nil => rfl
  | cons x xs ih =>
      rw [putChars, putChar, if_pos rfl, storeAll]
      cases store mem dest x with
      | none => rfl
      | some mem' => exact ih (dest + 1) mem'

/-- `luaL_addlstring` and `memcpy` are the same as the characters one by one. -/
theorem putAll_eq (h : ptr.Holds maxsize bytes) (hres : res = ptr.flag) (xs : List UInt8) :
    putAll res xs ptr = putChars res ptr.offset xs ptr := by
  cases ptr with
  | null => cases h
  | data bytes => cases h
  | luaBuffer added =>
      have hne : res ≠ 0 := by
        rw [hres]
        exact nofun
      rw [putChars_luaBuffer hne]
      exact if_pos hne
  | buffer mem p =>
      obtain rfl : res = 0 := hres
      rw [putChars_buffer, putAll, if_pos rfl]
      rfl

/-- What has room is added, in a C buffer only to nothing. -/
theorem putChars_spec (h : ptr.Holds maxsize bytes) (hres : res = ptr.flag) {xs : List UInt8}
    (hroom : ((bytes ++ xs).length : Int) ≤ maxsize)
    (honce : ptr.flag = 1 ∨ bytes = [] ∨ xs = []) :
    ∃ ptr', putChars res ptr.offset xs ptr = some ptr' ∧ ptr'.Holds maxsize (bytes ++ xs) ∧
      ptr'.flag = ptr.flag := by
  cases ptr with
  | null => cases h
  | data bytes => cases h
  | luaBuffer added =>
      have hne : res ≠ 0 := by
        rw [hres]
        exact nofun
      refine ⟨_, putChars_luaBuffer hne _ added xs, ?_, rfl⟩
      exact congrArg (· ++ xs) h
  | buffer mem p =>
      obtain rfl : res = 0 := hres
      obtain ⟨rfl, hlen, htake⟩ := h
      rw [List.length_append] at hroom
      have hfits : 0 + xs.length ≤ mem.length := by omega
      refine ⟨.buffer (splice mem 0 xs) 0, ?_, ?_, rfl⟩
      · rw [putChars_buffer, Ptr.offset, storeAll_eq_splice hfits]
        rfl
      · refine ⟨rfl, by rw [splice_length hfits]; exact hlen, ?_⟩
        rcases honce with hflag | rfl | rfl
        · cases hflag
        · have hslice := @slice_splice _ mem 0 xs (Nat.zero_le _)
          simpa [slice] using hslice
        · rw [splice_nil, List.append_nil]
          exact htake

/-- The loop that looks for the delimiter, when it is the last character or not there. -/
theorem readtoLoop_eq {r : UInt8} {data : List UInt8} (hlast : DelimiterLast (some r) data)
    (dest : Nat) (ptr : Ptr) (len : Int) :
    readtoLoop c res (charValue c r) dest data ptr len =
      (putChars res dest (meant (some r) data) ptr).map fun ptr =>
        (ptr, len - (meant (some r) data).length, decide (r ∈ data)) := by
  induction data generalizing dest ptr len with
  | nil => simp [readtoLoop, meant, putChars]
  | cons ch rest ih =>
      by_cases hch : ch = r
      · -- The delimiter: nothing is behind it.
        subst hch
        have hrest : rest = [] := by
          cases rest with
          | nil => rfl
          | cons b rest => exact absurd List.mem_cons_self hlast
        subst hrest
        simp [readtoLoop, meant, putChars]
      · have hrest : DelimiterLast (some r) rest := by
          cases rest with
          | nil => exact nofun
          | cons b rest => exact fun hmem => hlast (List.mem_cons_of_mem _ hmem)
        have hmem : decide (r ∈ ch :: rest) = decide (r ∈ rest) := by
          simp [Ne.symm hch]
        rw [readtoLoop, if_neg (mt charValue_inj.mp hch), hmem]
        by_cases hcr : ch = 13
        · have hmeant : meant (some r) (ch :: rest) = meant (some r) rest := by
            simp [meant, hcr]
          rw [if_neg (not_not.mpr hcr), ih hrest, hmeant]
        · have hmeant : meant (some r) (ch :: rest) = ch :: meant (some r) rest := by
            simp [meant, hch, hcr]
          rw [if_pos hcr, hmeant, putChars, List.length_cons]
          cases putChar res dest ch ptr with
          | none => rfl
          | some ptr' =>
              rw [Option.bind_some, ih hrest, Option.bind_some]
              have hlen : len - 1 - (meant (some r) rest).length =
                  len - ((meant (some r) rest).length + 1 : Nat) := by omega
              rw [hlen]

/-- The bytes of an event. -/
def Event.data (e : Event) : List UInt8 := e.appdata.take e.datalen

theorem Event.length_data (e : Event) : e.data.length = e.datalen := by
  rw [Event.data, List.length_take, Nat.min_eq_left e.datalen_le]

theorem length_meant_le (readto : Option UInt8) (data : List UInt8) :
    (meant readto data).length ≤ data.length := by
  cases readto with
  | none => exact Nat.le_refl _
  | some r => exact List.length_filter_le _ _

/-- What a call that waits has stored. -/
structure Filling (c : Config) (maxsize : Int) (readto : Option UInt8) (bytes : List UInt8)
    (s : EluaUipState) : Prop where
  holds : s.ptr.Holds maxsize bytes
  res : s.res = s.ptr.flag
  len : s.len = maxsize - bytes.length
  readto : s.readto = readtoCode c readto

/-- The last bytes of a call, or some others. -/
theorem handleReceive_spec {s : EluaUipState} {e : Event} {readto : Option UInt8}
    (h : Filling c maxsize readto bytes s) (hcode : ∀ r ∈ readto, charValue c r ≠ -1)
    (hlen : (e.datalen : Int) ≤ s.len) (hlast : DelimiterLast readto e.data)
    (honce : s.ptr.flag = 1 ∨ bytes = [] ∨ meant readto e.data = []) :
    ∃ s' calls, handleReceive c s e = some (s', calls) ∧
      s'.ptr.Holds maxsize (bytes ++ meant readto e.data) ∧
      s'.len = maxsize - (bytes ++ meant readto e.data).length ∧
      ((s'.state = ELUA_UIP_STATE_IDLE ∧ s'.res = ELUA_NET_ERR_OK ∧ calls = [.stop]) ∨
        (s'.state = s.state ∧ calls = [] ∧ (∀ r ∈ readto, r ∉ e.data) ∧
          Filling c maxsize readto (bytes ++ meant readto e.data) s')) := by
  have hmeant := length_meant_le readto e.data
  have hroom : ((bytes ++ meant readto e.data).length : Int) ≤ maxsize := by
    rw [e.length_data] at hmeant
    rw [List.length_append]
    have := h.len
    omega
  obtain ⟨ptr', hput, hholds, hflag⟩ := putChars_spec h.holds h.res hroom honce
  have hlen' : s.len - (meant readto e.data).length =
      maxsize - (bytes ++ meant readto e.data).length := by
    rw [h.len, List.length_append]
    omega
  -- Either way the characters are stored; the loop also looks for the delimiter.
  have hcopied : handleReceive c s e =
      some (if s.len - (meant readto e.data).length = 0 ∨
          (decide (e.datalen < c.UIP_RECEIVE_WINDOW) || readto.any (· ∈ e.data)) = true then
        ({ s with
          ptr := ptr'
          len := s.len - (meant readto e.data).length
          res := ELUA_NET_ERR_OK
          state := ELUA_UIP_STATE_IDLE }, [.stop])
      else ({ s with ptr := ptr', len := s.len - (meant readto e.data).length }, [])) := by
    have hoverflow : ¬s.len < e.datalen := Int.not_lt.mpr hlen
    unfold handleReceive
    simp only [if_neg hoverflow, Int.toNat_natCast]
    cases readto with
    | none =>
        have hcode' : ¬s.readto ≠ ELUA_NET_NO_LASTCHAR := not_not.mpr h.readto
        have hneg : ¬(e.datalen : Int) < 0 := by omega
        have hput' : putAll s.res (e.appdata.take e.datalen) s.ptr = some ptr' :=
          (putAll_eq h.holds h.res _).trans hput
        rw [if_neg hcode', if_neg hneg, hput']
        have hsize : (meant none e.data).length = e.datalen := e.length_data
        simp only [Option.map_some, hsize, Option.any_none, Bool.or_false]
    | some r =>
        have hcode' : s.readto ≠ ELUA_NET_NO_LASTCHAR := by
          rw [h.readto]
          exact hcode r rfl
        have hloop := @readtoLoop_eq c s.res r _ hlast s.ptr.offset s.ptr s.len
        rw [hput, Option.map_some] at hloop
        rw [if_pos hcode', h.readto]
        dsimp only [readtoCode]
        rw [← Event.data, hloop]
        simp only [Option.map_some, Option.any_some]
  rw [hcopied]
  split
  next => exact ⟨_, _, rfl, hholds, hlen', .inl ⟨rfl, rfl, rfl⟩⟩
  next hmore =>
    refine ⟨_, _, rfl, hholds, hlen', .inr ⟨rfl, rfl, ?_, ?_⟩⟩
    · rintro r hr
      obtain rfl := Option.mem_def.mp hr
      intro hmem
      exact hmore (.inr (by simp [hmem]))
    · exact ⟨hholds, h.res.trans hflag.symm, hlen', h.readto⟩

end

/-! ## Runs -/

/-- A call, by its parameters. -/
structure Call where
  maxsize : Int
  readto : Option UInt8

/-- A call that has returned: what was accepted during the call, what it has returned, and
the error that is left. -/
structure Delivery where
  call : Call
  chunk : List UInt8
  returned : List UInt8
  res : UInt8

/-- The application, whether uIP accepts data, what it has accepted, the calls that have
returned, and the one in progress with what has been accepted since it began. -/
structure Receiving where
  w : World
  stopped : Bool
  incoming : List UInt8
  finished : List Delivery
  call : Option Call
  chunk : List UInt8

inductive RecvAction where
  /-- `elua_net_recv` into a buffer of `maxsize` bytes. -/
  | recv (mem : List UInt8) (readto : Option UInt8)
  | recvbuf (maxsize : Int) (readto : Option UInt8)
  | event (e : Event)
  /-- The time of the call is over. -/
  | expire
  /-- The call returns. -/
  | finish

/-- A call fills in the state, unless there is nothing to receive. -/
def Receiving.begin (c : Config) (sockno : Nat) (g : Receiving) (ptr : Ptr) (maxsize : Int)
    (readto : Option UInt8) (withBuffer : Bool) : Receiving :=
  if g.call.isNone ∧ maxsize ≠ 0 then
    { g with
      w := g.w.set sockno (prepRecv ptr maxsize (readtoCode c readto) withBuffer)
      call := some ⟨maxsize, readto⟩
      chunk := [] }
  else g

/-- The events that uIP raises: it accepts no data while the connection is stopped.  The
connection is not one of the telnet server. -/
def Receiving.raises (c : Config) (g : Receiving) (e : Event) : Bool :=
  !(e.newdata && g.stopped) && !(c.conTcp && decide (e.lport = ELUA_NET_TELNET_PORT))

/-- `uip_stop` and `uip_restart`. -/
def stoppedAfter (stopped : Bool) : UipCall → Bool
  | .stop => true
  | .restart => false
  | _ => stopped

/-- What uIP has accepted with an event. -/
def Event.accepted (e : Event) : List UInt8 := if e.newdata then e.data else []

/-- The data that a call returns. -/
def returnedData (maxsize : Int) (s : EluaUipState) : List UInt8 :=
  match s.ptr with
  | .luaBuffer added => added
  | .buffer mem _ => mem.take (maxsize - s.len).toNat
  | _ => []

/-- What cannot happen is skipped.  There is no result when memory is accessed that is not
there, or not of the type it is taken for. -/
def recvStep (c : Config) (sockno : Nat) (g : Receiving) : RecvAction → Option Receiving
  | .recv mem readto => some (g.begin c sockno (.buffer mem 0) mem.length readto false)
  | .recvbuf maxsize readto => some (g.begin c sockno (.luaBuffer []) maxsize readto true)
  | .event e =>
      if g.raises c e then
        (eluaUipAppcall c g.w sockno e).map fun (w, calls) =>
          { g with
            w := w
            stopped := calls.foldl stoppedAfter g.stopped
            incoming := g.incoming ++ e.accepted
            chunk := g.chunk ++ e.accepted }
      else some g
  | .expire =>
      let s := g.w.socket sockno
      some (if s.state = ELUA_UIP_STATE_IDLE then g
        else
          let s := { s with res := ELUA_NET_ERR_TIMEDOUT, state := ELUA_UIP_STATE_IDLE }
          { g with w := g.w.set sockno s })
  | .finish =>
      let s := g.w.socket sockno
      some (match g.call with
        | some call =>
            if s.state = ELUA_UIP_STATE_IDLE then
              { g with
                finished := g.finished ++ [⟨call, g.chunk, returnedData call.maxsize s, s.res⟩]
                call := none
                chunk := [] }
            else g
        | none => g)

/-- Before the peer connects. -/
def Receiving.start (w : World) : Receiving := ⟨w, false, [], [], none, []⟩

/-- A call returns what was accepted during it, and none of it is left out. -/
structure Delivered (d : Delivery) : Prop where
  returned : d.returned = meant d.call.readto d.chunk
  last : DelimiterLast d.call.readto d.chunk
  within : d.returned.length ≤ d.call.maxsize.toNat
  res : d.res ≠ ELUA_NET_ERR_OVERFLOW

/-- Every byte that is accepted is accepted during a call, which returns it. -/
structure StreamOk (g : Receiving) : Prop where
  incoming : g.incoming = (g.finished.map (·.chunk)).flatten ++ g.chunk
  during : g.call = none → g.chunk = []
  delivered : ∀ d ∈ g.finished, Delivered d

/-- The bytes of an event are all taken: they come while a call waits for them and not
together with the beginning or the end of the connection, there is room for them, none is
behind the delimiter, and in a C buffer they are the first ones. -/
def TakenWhole (sockno : Nat) (g : Receiving) (e : Event) : Prop :=
  let s := g.w.socket sockno
  let readto := g.call.bind (·.readto)
  if e.connected = true ∨ e.terminal = true ∨ s.state ≠ ELUA_UIP_STATE_RECV_2 then e.data = []
  else
    (e.datalen : Int) ≤ s.len ∧ DelimiterLast readto e.data ∧
      (s.ptr.flag = 1 ∨ g.call.map (·.maxsize) = some s.len ∨ meant readto e.data = [])

instance (sockno : Nat) (g : Receiving) (e : Event) : Decidable (TakenWhole sockno g e) :=
  inferInstanceAs (Decidable (@ite Prop _ _ _ _))

/-- The condition on an action. -/
def Taken (c : Config) (sockno : Nat) (g : Receiving) : RecvAction → Prop
  | .recv _ readto | .recvbuf _ readto => ∀ r ∈ readto, charValue c r ≠ -1
  | .event e => g.raises c e = true → e.newdata = true → TakenWhole sockno g e
  | _ => True

instance (c : Config) (sockno : Nat) (g : Receiving) :
    (a : RecvAction) → Decidable (Taken c sockno g a)
  | .recv _ none | .recvbuf _ none => .isTrue nofun
  | .recv _ (some r) | .recvbuf _ (some r) =>
      decidable_of_iff (charValue c r ≠ -1)
        ⟨fun h _ hr => Option.some.inj hr ▸ h, fun h => h r rfl⟩
  | .event e => inferInstanceAs (Decidable (g.raises c e = true → _))
  | .expire | .finish => inferInstanceAs (Decidable True)

/-! ## One action -/

/-- A call in progress. -/
structure Progress (c : Config) (call : Call) (chunk : List UInt8) (s : EluaUipState) :
    Prop where
  code : ∀ r ∈ call.readto, charValue c r ≠ -1
  holds : s.ptr.Holds call.maxsize (meant call.readto chunk)
  len : s.len = call.maxsize - (meant call.readto chunk).length
  within : (meant call.readto chunk).length ≤ call.maxsize.toNat
  last : DelimiterLast call.readto chunk
  waiting : (s.state = ELUA_UIP_STATE_IDLE ∧ s.res ≠ ELUA_NET_ERR_OVERFLOW) ∨
    ((s.state = ELUA_UIP_STATE_RECV ∨ s.state = ELUA_UIP_STATE_RECV_2) ∧
      (∀ r ∈ call.readto, r ∉ chunk) ∧
      Filling c call.maxsize call.readto (meant call.readto chunk) s)

/-- What holds in every state of a run. -/
structure RecvInv (c : Config) (sockno : Nat) (g : Receiving) : Prop where
  configured : g.w.configured = true
  telnet : g.w.isTelnet c sockno = false
  ok : StreamOk g
  idle : g.call = none → (g.w.socket sockno).state = ELUA_UIP_STATE_IDLE
  progress : ∀ call ∈ g.call, Progress c call g.chunk (g.w.socket sockno)

section

variable {c : Config} {w : World} {sockno : Nat} {g : Receiving} {e : Event}

theorem terminalError_ne (e : Event) : terminalError e ≠ ELUA_NET_ERR_OVERFLOW := by
  unfold terminalError
  split_ifs <;> exact nofun

theorem delimiterLast_append {readto : Option UInt8} {chunk data : List UInt8}
    (hchunk : ∀ r ∈ readto, r ∉ chunk) (hlast : DelimiterLast readto data) :
    DelimiterLast readto (chunk ++ data) := by
  cases readto with
  | none => trivial
  | some r =>
      intro hmem
      rw [List.dropLast_append] at hmem
      split at hmem
      next => exact hchunk r rfl (List.dropLast_subset _ hmem)
      next =>
        rcases List.mem_append.mp hmem with hmem | hmem
        · exact hchunk r rfl hmem
        · exact hlast hmem

theorem returnedData_eq {maxsize : Int} {bytes : List UInt8} {s : EluaUipState}
    (hholds : s.ptr.Holds maxsize bytes) (hlen : s.len = maxsize - bytes.length) :
    returnedData maxsize s = bytes := by
  unfold returnedData
  cases hptr : s.ptr with
  | null => rw [hptr] at hholds; cases hholds
  | data bytes => rw [hptr] at hholds; cases hholds
  | luaBuffer added =>
      rw [hptr] at hholds
      exact hholds
  | buffer mem p =>
      rw [hptr] at hholds
      have hcount : (maxsize - s.len).toNat = bytes.length := by omega
      dsimp only
      rw [hcount]
      exact hholds.2.2

/-- The beginning of the connection. -/
theorem appcall_connected (hconfigured : w.configured = true)
    (hport : ¬(c.conTcp = true ∧ e.lport = ELUA_NET_TELNET_PORT)) (hconnected : e.connected = true)
    (hs : (w.socket sockno).state ≠ ELUA_UIP_STATE_CONNECT) :
    ∃ w', eluaUipAppcall c w sockno e = some (w', [.stop]) ∧ w'.configured = true ∧
      w'.telnetSocket = w.telnetSocket ∧ w'.socket = w.socket := by
  unfold eluaUipAppcall
  rw [hconfigured, hconnected]
  simp only [Bool.not_true, Bool.false_eq_true, if_false, if_true, if_neg hport, if_neg hs]
  split
  next => exact ⟨_, rfl, rfl, rfl, rfl⟩
  next => exact ⟨w, rfl, hconfigured, rfl, rfl⟩

theorem appcall_recv2 (hconfigured : w.configured = true) (htelnet : w.isTelnet c sockno = false)
    (hconnected : e.connected = false) (hs : (w.socket sockno).state = ELUA_UIP_STATE_RECV_2)
    (hterminal : e.terminal = false) :
    eluaUipAppcall c w sockno e =
      if e.newdata then
        (handleReceive c (w.socket sockno) e).map fun r => (w.set sockno r.1, r.2)
      else some (w, []) := by
  unfold eluaUipAppcall
  simp [hconfigured, hconnected, hs, hterminal, htelnet]

/-- What is left to show of an event. -/
theorem event_of_appcall (hinv : RecvInv c sockno g) (hraises : g.raises c e = true) {w' : World}
    {calls : List UipCall} (hcall : eluaUipAppcall c g.w sockno e = some (w', calls))
    (hconfigured : w'.configured = true) (htelnet : w'.isTelnet c sockno = false)
    (hidle : g.call = none →
      (w'.socket sockno).state = ELUA_UIP_STATE_IDLE ∧ e.accepted = [])
    (hprogress : ∀ call ∈ g.call,
      Progress c call (g.chunk ++ e.accepted) (w'.socket sockno)) :
    ∃ g', recvStep c sockno g (.event e) = some g' ∧ RecvInv c sockno g' := by
  refine ⟨{ g with
    w := w'
    stopped := calls.foldl stoppedAfter g.stopped
    incoming := g.incoming ++ e.accepted
    chunk := g.chunk ++ e.accepted }, ?_, ?_⟩
  · rw [recvStep, if_pos hraises, hcall]
    rfl
  · refine ⟨hconfigured, htelnet, ⟨?_, ?_, hinv.ok.delivered⟩, fun h => (hidle h).1, hprogress⟩
    · dsimp only
      rw [hinv.ok.incoming, List.append_assoc]
    · intro hnone
      dsimp only
      rw [hinv.ok.during hnone, (hidle hnone).2, List.append_nil]

theorem isTelnet_congr {w' : World} (h : w'.telnetSocket = w.telnetSocket) :
    w'.isTelnet c sockno = w.isTelnet c sockno := by
  rw [World.isTelnet, h]
  rfl

/-- An event without data leaves what has been stored. -/
theorem Progress.of_nil {call : Call} {chunk : List UInt8} {s : EluaUipState}
    (h : Progress c call chunk s) : Progress c call (chunk ++ []) s := by
  rw [List.append_nil]
  exact h

/-- The end of the call, with what has been stored. -/
theorem Progress.stopWith {call : Call} {chunk : List UInt8} {s : EluaUipState}
    (h : Progress c call chunk s) {res : UInt8} (hres : res ≠ ELUA_NET_ERR_OVERFLOW) :
    Progress c call chunk { s with res := res, state := ELUA_UIP_STATE_IDLE } where
  code := h.code
  holds := h.holds
  len := h.len
  within := h.within
  last := h.last
  waiting := .inl ⟨rfl, hres⟩

theorem Progress.state {call : Call} {chunk : List UInt8} {s : EluaUipState}
    (h : Progress c call chunk s) : s.state = ELUA_UIP_STATE_IDLE ∨
      s.state = ELUA_UIP_STATE_RECV ∨ s.state = ELUA_UIP_STATE_RECV_2 := by
  rcases h.waiting with h | h
  · exact .inl h.1
  · exact .inr h.1

theorem RecvInv.state (hinv : RecvInv c sockno g) :
    (g.w.socket sockno).state = ELUA_UIP_STATE_IDLE ∨
      (g.w.socket sockno).state = ELUA_UIP_STATE_RECV ∨
      (g.w.socket sockno).state = ELUA_UIP_STATE_RECV_2 := by
  cases hcall : g.call with
  | none => exact .inl (hinv.idle hcall)
  | some call => exact (hinv.progress call hcall).state

/-- Data, while a call waits for it. -/
theorem Progress.receive {call : Call} {chunk : List UInt8} {s : EluaUipState}
    (h : Progress c call chunk s) (hs : s.state = ELUA_UIP_STATE_RECV_2)
    (hlen : (e.datalen : Int) ≤ s.len) (hlast : DelimiterLast call.readto e.data)
    (honce : s.ptr.flag = 1 ∨ call.maxsize = s.len ∨ meant call.readto e.data = []) :
    ∃ s' calls, handleReceive c s e = some (s', calls) ∧
      Progress c call (chunk ++ e.data) s' := by
  have hwaiting : (∀ r ∈ call.readto, r ∉ chunk) ∧
      Filling c call.maxsize call.readto (meant call.readto chunk) s := by
    rcases h.waiting with hidle | hwaiting
    · rw [hs] at hidle
      cases hidle.1
    · exact hwaiting.2
  obtain ⟨hchunk, hfilling⟩ := hwaiting
  have honce' : s.ptr.flag = 1 ∨ meant call.readto chunk = [] ∨ meant call.readto e.data = [] := by
    refine honce.imp_right fun honce => honce.imp_left fun hsize => ?_
    apply List.eq_nil_of_length_eq_zero
    have := h.len
    omega
  obtain ⟨s', calls, hreceive, hholds, hlen', hdone⟩ :=
    handleReceive_spec hfilling h.code hlen hlast honce'
  have hwithin : (meant call.readto (chunk ++ e.data)).length ≤ call.maxsize.toNat := by
    have hmeant := length_meant_le call.readto e.data
    rw [e.length_data] at hmeant
    rw [meant_append, List.length_append]
    have := h.len
    omega
  rw [← meant_append] at hholds hlen' hdone
  refine ⟨s', calls, hreceive, h.code, hholds, hlen', hwithin, delimiterLast_append hchunk hlast, ?_⟩
  rcases hdone with ⟨hidle, hres, -⟩ | ⟨hstate, -, hdata, hfilling'⟩
  · refine .inl ⟨hidle, ?_⟩
    rw [hres]
    exact nofun
  · refine .inr ⟨.inr (hstate.trans hs), ?_, hfilling'⟩
    intro r hr hmem
    rcases List.mem_append.mp hmem with hmem | hmem
    · exact hchunk r hr hmem
    · exact hdata r hr hmem

/-- An event. -/
theorem event_spec (hinv : RecvInv c sockno g) (hok : Taken c sockno g (.event e)) :
    ∃ g', recvStep c sockno g (.event e) = some g' ∧ RecvInv c sockno g' := by
  by_cases hraises : g.raises c e = true
  swap
  · exact ⟨g, if_neg hraises, hinv⟩
  have hport : ¬(c.conTcp = true ∧ e.lport = ELUA_NET_TELNET_PORT) := by
    rintro ⟨hcon, hport⟩
    simp [Receiving.raises, hcon, hport] at hraises
  -- Unless a call waits for data, none is accepted.
  have hnodata : (e.connected = true ∨ e.terminal = true ∨
      (g.w.socket sockno).state ≠ ELUA_UIP_STATE_RECV_2) → e.accepted = [] := by
    intro h
    unfold Event.accepted
    split
    next hnew =>
      have htaken : TakenWhole sockno g e := hok hraises hnew
      rw [TakenWhole, if_pos h] at htaken
      exact htaken
    next => rfl
  -- Then it is enough that what has been stored is left as it is.
  have hquiet : ∀ {w' : World} {calls : List UipCall}, e.accepted = [] →
      eluaUipAppcall c g.w sockno e = some (w', calls) → w'.configured = true →
      w'.isTelnet c sockno = false →
      (g.call = none → (w'.socket sockno).state = ELUA_UIP_STATE_IDLE) →
      (∀ call ∈ g.call, Progress c call g.chunk (w'.socket sockno)) →
      ∃ g', recvStep c sockno g (.event e) = some g' ∧ RecvInv c sockno g' := by
    intro w' calls hnil hcall hconfigured htelnet hidle hprogress
    apply event_of_appcall hinv hraises hcall hconfigured htelnet fun h => ⟨hidle h, hnil⟩
    intro call hmem
    rw [hnil]
    exact (hprogress call hmem).of_nil
  cases hconnected : e.connected with
  | true =>
      have hs : (g.w.socket sockno).state ≠ ELUA_UIP_STATE_CONNECT := by
        rcases hinv.state with h | h | h <;> rw [h] <;> exact nofun
      obtain ⟨w', hcall, hconfigured, htelnet, hsocket⟩ :=
        appcall_connected hinv.configured hport hconnected hs
      apply hquiet (hnodata (.inl hconnected)) hcall hconfigured
      · rw [isTelnet_congr htelnet]
        exact hinv.telnet
      · rw [hsocket]
        exact hinv.idle
      · rw [hsocket]
        exact hinv.progress
  | false =>
      rcases hinv.state with hs | hs | hs
      · -- No call waits.
        have hne : (g.w.socket sockno).state ≠ ELUA_UIP_STATE_RECV_2 := by
          rw [hs]
          exact nofun
        exact hquiet (hnodata (.inr (.inr hne))) (appcall_idle hconnected hs) hinv.configured
          hinv.telnet hinv.idle hinv.progress
      · -- A call is new.
        have hne : (g.w.socket sockno).state ≠ ELUA_UIP_STATE_RECV_2 := by
          rw [hs]
          exact nofun
        apply hquiet (hnodata (.inr (.inr hne))) (appcall_recv hinv.configured hconnected hs)
          hinv.configured hinv.telnet
        · intro hnone
          have hidle := hinv.idle hnone
          rw [hs] at hidle
          cases hidle
        · intro call hmem
          have h := hinv.progress call hmem
          rw [socket_set]
          refine ⟨h.code, h.holds, h.len, h.within, h.last, ?_⟩
          rcases h.waiting with hidle | ⟨-, hchunk, hfilling⟩
          · rw [hs] at hidle
            cases hidle.1
          · exact .inr ⟨.inr rfl, hchunk, hfilling.holds, hfilling.res, hfilling.len,
              hfilling.readto⟩
      · have hsome : g.call ≠ none := by
          intro hnone
          have hidle := hinv.idle hnone
          rw [hs] at hidle
          cases hidle
        cases hterminal : e.terminal with
        | true =>
            have hidle : (g.w.socket sockno).state ≠ ELUA_UIP_STATE_IDLE := by
              rw [hs]
              exact nofun
            have hrecv : (g.w.socket sockno).state ≠ ELUA_UIP_STATE_RECV := by
              rw [hs]
              exact nofun
            apply hquiet (hnodata (.inr (.inl hterminal)))
              (appcall_terminal hinv.configured hconnected hidle hrecv hterminal) hinv.configured
            · rw [hinv.telnet]
              exact hinv.telnet
            · exact fun hnone => absurd hnone hsome
            · intro call hmem
              rw [socket_set]
              exact (hinv.progress call hmem).stopWith (terminalError_ne e)
        | false =>
            have hcall := appcall_recv2 (c := c) hinv.configured hinv.telnet hconnected hs hterminal
            cases hnew : e.newdata with
            | false =>
                rw [hnew, if_neg Bool.false_ne_true] at hcall
                have hnil : e.accepted = [] := by
                  rw [Event.accepted, hnew]
                  rfl
                exact hquiet hnil hcall hinv.configured hinv.telnet hinv.idle hinv.progress
            | true =>
                obtain ⟨call, hmem⟩ := Option.ne_none_iff_exists'.mp hsome
                have htaken : TakenWhole sockno g e := hok hraises hnew
                have hnot : ¬(e.connected = true ∨ e.terminal = true ∨
                    (g.w.socket sockno).state ≠ ELUA_UIP_STATE_RECV_2) := by
                  simp [hconnected, hterminal, hs]
                rw [TakenWhole, if_neg hnot, hmem] at htaken
                obtain ⟨hlen, hlast, honce⟩ := htaken
                rw [Option.map_some, Option.some_inj] at honce
                obtain ⟨s', calls, hreceive, hprogress⟩ :=
                  (hinv.progress call hmem).receive hs hlen hlast honce
                rw [hnew, if_pos rfl, hreceive, Option.map_some] at hcall
                have hdata : e.accepted = e.data := by
                  rw [Event.accepted, hnew]
                  rfl
                apply event_of_appcall hinv hraises hcall hinv.configured hinv.telnet
                · exact fun hnone => absurd hnone hsome
                · intro call' hmem'
                  obtain rfl := Option.some.inj (hmem.symm.trans hmem')
                  rw [socket_set, hdata]
                  exact hprogress

/-- A call begins. -/
theorem begin_spec (hinv : RecvInv c sockno g) {ptr : Ptr} {maxsize : Int}
    {readto : Option UInt8} {withBuffer : Bool} (hok : ∀ r ∈ readto, charValue c r ≠ -1)
    (hholds : ptr.Holds maxsize []) (hflag : (if withBuffer then 1 else 0) = ptr.flag) :
    RecvInv c sockno (g.begin c sockno ptr maxsize readto withBuffer) := by
  unfold Receiving.begin
  split
  next h =>
    refine ⟨hinv.configured, hinv.telnet, ⟨?_, fun _ => rfl, hinv.ok.delivered⟩, nofun, ?_⟩
    · have hchunk := hinv.ok.during (Option.isNone_iff_eq_none.mp h.1)
      rw [hinv.ok.incoming, hchunk]
    · intro call hcall
      obtain rfl := Option.some.inj hcall
      have hmeant : meant readto [] = [] := by cases readto <;> rfl
      dsimp only
      rw [socket_set]
      refine ⟨hok, ?_, ?_, ?_, ?_, .inr ⟨.inl rfl, fun _ _ => List.not_mem_nil, ?_⟩⟩
      · rw [hmeant]
        exact hholds
      · rw [hmeant]
        exact (Int.sub_zero maxsize).symm
      · rw [hmeant]
        exact Nat.zero_le _
      · cases readto with
        | none => trivial
        | some r => exact List.not_mem_nil
      · rw [hmeant]
        exact ⟨hholds, hflag, (Int.sub_zero maxsize).symm, rfl⟩
  next => exact hinv

/-- A call returns. -/
theorem Progress.delivered {call : Call} {chunk : List UInt8} {s : EluaUipState}
    (h : Progress c call chunk s) (hs : s.state = ELUA_UIP_STATE_IDLE) :
    Delivered ⟨call, chunk, returnedData call.maxsize s, s.res⟩ := by
  have hreturned := returnedData_eq h.holds h.len
  refine ⟨hreturned, h.last, ?_, ?_⟩
  · dsimp only
    rw [hreturned]
    exact h.within
  · rcases h.waiting with hidle | ⟨hwaiting, -⟩
    · exact hidle.2
    · rw [hs] at hwaiting
      rcases hwaiting with hwaiting | hwaiting <;> cases hwaiting

theorem finish_spec (hinv : RecvInv c sockno g) :
    ∃ g', recvStep c sockno g .finish = some g' ∧ RecvInv c sockno g' := by
  refine ⟨_, rfl, ?_⟩
  split
  next call hcall =>
    split
    next hs =>
      have hdelivered := (hinv.progress call hcall).delivered hs
      refine ⟨hinv.configured, hinv.telnet, ⟨?_, fun _ => rfl, ?_⟩, fun _ => hs, nofun⟩
      · dsimp only
        rw [hinv.ok.incoming, List.map_append, List.flatten_append, List.append_nil]
        simp
      · intro d hd
        rcases List.mem_append.mp hd with hd | hd
        · exact hinv.ok.delivered d hd
        · obtain rfl := List.mem_singleton.mp hd
          exact hdelivered
    next => exact hinv
  next => exact hinv

theorem expire_spec (hinv : RecvInv c sockno g) :
    ∃ g', recvStep c sockno g .expire = some g' ∧ RecvInv c sockno g' := by
  refine ⟨_, rfl, ?_⟩
  split
  next => exact hinv
  next =>
    have hok := hinv.ok
    refine ⟨hinv.configured, hinv.telnet, ⟨hok.incoming, hok.during, hok.delivered⟩, ?_, ?_⟩
    · intro _
      dsimp only
      rw [socket_set]
    · intro call hcall
      dsimp only
      rw [socket_set]
      exact (hinv.progress call hcall).stopWith nofun

/-- **One action.** -/
theorem recvStep_spec (hinv : RecvInv c sockno g) {a : RecvAction} (hok : Taken c sockno g a) :
    ∃ g', recvStep c sockno g a = some g' ∧ RecvInv c sockno g' := by
  cases a with
  | recv mem readto => exact ⟨_, rfl, begin_spec hinv hok ⟨rfl, rfl, rfl⟩ rfl⟩
  | recvbuf maxsize readto => exact ⟨_, rfl, begin_spec hinv hok rfl rfl⟩
  | event e => exact event_spec hinv hok
  | expire => exact expire_spec hinv
  | finish => exact finish_spec hinv

end

/-! ## A line, and one that is too long -/

def receiveWorld : World :=
  ⟨true, -1, false, -1, (0, 0), fun _ => ⟨ELUA_UIP_STATE_IDLE, 0, .null, 0, 0⟩⟩

/-- New data. -/
def dataEvent (bytes : List UInt8) : Event :=
  { Event.quiet 100 with
    newdata := true
    appdata := bytes
    datalen := bytes.length
    datalen_le := Nat.le_refl _ }

/-- The peer connects, and a call receives what it sends. -/
def oneCall (maxsize : Int) (readto : Option UInt8) (bytes : List UInt8) : List RecvAction :=
  [.event { Event.quiet 100 with connected := true }, .recvbuf maxsize readto,
    .event { Event.quiet 100 with poll := true }, .event (dataEvent bytes), .finish]

end Uip
