import EluaWebServer.Lib.Transition
import EluaWebServer.Rfs.Exchange

/-!
# Requests and late responses

The client sends a request and reads a response with timeouts, over a link that keeps the
order of the bytes and delivers them at any time.  Next to the bytes runs the number of the
request that they answer.
-/

namespace Rfs.Pairing

open Rpc Buffer

/-! ## A client function in two halves -/

/-- What the loop that empties the receive buffer does to the request: each byte is read to
where the request begins. -/
def rfschEmptyReceiveBuffer (buf drained : List UInt8) : List UInt8 :=
  match drained.getLast? with
  | some b => buf.set 0 b
  | none => buf

/-- The bytes that are sent, if any. -/
def rfschSend (buf : List UInt8) : Option (Option (List UInt8)) := do
  let (temp16, e) ← eluarpcGetPacketSize buf
  if e = ELUARPC_ERR then
    return none
  if buf.length < temp16.toNat then
    none
  return some (buf.take temp16.toNat)

/-- The rest of `rfsch_send_request_read_response`, on the bytes that come in time, and how
many of them it reads. -/
def rfschReceive (buf stream : List UInt8) : Option (ClientStatus × List UInt8 × Nat) := do
  let buf ← storeAll buf 0 (stream.take ELUARPC_START_OFFSET)
  if stream.length < ELUARPC_START_OFFSET then
    return (CLIENT_ERR, buf, stream.length)
  let (temp16, e) ← eluarpcGetPacketSize buf
  if e = ELUARPC_ERR then
    return (CLIENT_ERR, buf, ELUARPC_START_OFFSET)
  let rest := (stream.drop ELUARPC_START_OFFSET).take (bytesAfterHeader temp16)
  let buf ← storeAll buf ELUARPC_START_OFFSET rest
  if rest.length ≠ bytesAfterHeader temp16 then
    return (CLIENT_ERR, buf, ELUARPC_START_OFFSET + rest.length)
  return (CLIENT_OK, buf, ELUARPC_START_OFFSET + rest.length)

/-- With an empty receive buffer the two halves are the whole. -/
theorem rfschSendRequestReadResponse_eq (link : Link) (buf : List UInt8) :
    rfschSendRequestReadResponse link buf = (rfschSend buf).bind fun
      | none => some (CLIENT_ERR, buf)
      | some request => (link request).bind fun stream =>
          (rfschReceive buf stream).map fun r => (r.1, r.2.1) := by
  unfold rfschSendRequestReadResponse rfschSend rfschReceive
  cases eluarpcGetPacketSize buf with
  | none => rfl
  | some size =>
      obtain ⟨temp16, e⟩ := size
      simp only [Option.bind_eq_bind, Option.bind_some, Option.pure_def]
      by_cases herr : e = ELUARPC_ERR
      · rw [if_pos herr, if_pos herr]
        rfl
      rw [if_neg herr, if_neg herr]
      by_cases hsend : buf.length < temp16.toNat
      · rw [if_pos hsend, if_pos hsend]
        rfl
      rw [if_neg hsend, if_neg hsend, Option.bind_some]
      dsimp only
      cases link (buf.take temp16.toNat) with
      | none => rfl
      | some stream =>
          rw [Option.bind_some, Option.bind_some, Option.map_bind]
          cases storeAll buf 0 (stream.take ELUARPC_START_OFFSET) with
          | none => rfl
          | some buf =>
              rw [Option.bind_some, Option.bind_some, Function.comp_apply]
              by_cases hshort : stream.length < ELUARPC_START_OFFSET
              · rw [if_pos hshort, if_pos hshort]
                rfl
              rw [if_neg hshort, if_neg hshort, Option.map_bind]
              cases eluarpcGetPacketSize buf with
              | none => rfl
              | some size =>
                  obtain ⟨temp16, e⟩ := size
                  simp only [Option.bind_some, Function.comp_apply]
                  by_cases herr : e = ELUARPC_ERR
                  · rw [if_pos herr, if_pos herr]
                    rfl
                  rw [if_neg herr, if_neg herr, Option.map_bind]
                  congr 1
                  funext buf
                  rw [Function.comp_apply]
                  split <;> rfl

/-! ## The client functions -/

/-- What the client functions return. -/
inductive Result where
  | value (v : UInt32)
  | data (count : UInt32) (bytes : List UInt8)
  | entry (e : Option (List UInt8 × UInt32))
  deriving DecidableEq

/-- A call of a client function. -/
inductive Operation where
  | open_ (o : OpenFlags) (pathname : CString) (flags mode : UInt32)
  | write (fd : UInt32) (buf : Option (List UInt8)) (count : UInt32)
  | read (fd count : UInt32)
  | lseek (fd offset whence : UInt32)
  | close (fd : UInt32)
  | opendir (name : CString)
  | readdir (d : UInt32)
  | closedir (d : UInt32)

/-- The call over a link whose receive buffer is empty. -/
def Operation.call (link : Link) (rfscBuffer : List UInt8) : Operation → Option Result
  | .open_ o pathname flags mode => (rfscOpen link o rfscBuffer pathname flags mode).map .value
  | .write fd buf count => (rfscWrite link rfscBuffer fd buf count).map .value
  | .read fd count => (rfscRead link rfscBuffer fd count).map fun r => .data r.1 r.2
  | .lseek fd offset whence => (rfscLseek link rfscBuffer fd offset whence).map .value
  | .close fd => (rfscClose link rfscBuffer fd).map .value
  | .opendir name => (rfscOpendir link rfscBuffer name).map .value
  | .readdir d => (rfscReaddir link rfscBuffer d).map .entry
  | .closedir d => (rfscClosedir link rfscBuffer d).map .value

/-- The request. -/
def Operation.request (rfscBuffer : List UInt8) : Operation → Option (List UInt8)
  | .open_ o pathname flags mode =>
      remotefsOpenWriteRequest rfscBuffer pathname (osOpenSysFlagsToRfsFlags o flags) mode
  | .write fd buf count => remotefsWriteWriteRequest rfscBuffer fd buf count
  | .read fd count => remotefsReadWriteRequest rfscBuffer fd count
  | .lseek fd offset whence =>
      remotefsLseekWriteRequest rfscBuffer fd offset (osLseekSysWhenceToRfsWhence whence)
  | .close fd => remotefsCloseWriteRequest rfscBuffer fd
  | .opendir name => remotefsOpendirWriteRequest rfscBuffer name
  | .readdir d => remotefsReaddirWriteRequest rfscBuffer d
  | .closedir d => remotefsClosedirWriteRequest rfscBuffer d

/-- The failure value. -/
def Operation.failed : Operation → Result
  | .read _ _ => .data minusOne []
  | .opendir _ => .value 0
  | .readdir _ => .entry none
  | _ => .value minusOne

/-- The result that is read from a response. -/
def Operation.decode (buf : List UInt8) : Operation → Option (Result × ErrFlag)
  | .open_ _ _ _ _ => (remotefsOpenReadResponse buf).map fun r => (.value r.1, r.2)
  | .write _ _ _ => (remotefsWriteReadResponse buf).map fun r => (.value r.1, r.2)
  | .read _ _ => (copyRead buf).map fun r => (.data r.1.1 r.1.2, r.2)
  | .lseek _ _ _ => (remotefsLseekReadResponse buf).map fun r => (.value r.1, r.2)
  | .close _ => (remotefsCloseReadResponse buf).map fun r => (.value r.1, r.2)
  | .opendir _ => (remotefsOpendirReadResponse buf).map fun r => (.value r.1, r.2)
  | .readdir _ => (readEntry buf).map fun r => (.entry r.1, r.2)
  | .closedir _ => (remotefsClosedirReadResponse buf).map fun r => (.value r.1, r.2)

/-- What the call returns when the response has been read, or not. -/
def Operation.interpret (op : Operation) (status : ClientStatus) (buf : List UInt8) :
    Option Result :=
  if status = CLIENT_ERR then some op.failed
  else (op.decode buf).map fun r => if r.2 = ELUARPC_ERR then op.failed else r.1

theorem exchange_map {α β : Type} (f : α → β) (link : Link) (buf : Option (List UInt8))
    (failed : α) (decode : List UInt8 → Option (α × ErrFlag)) :
    (exchange link buf failed decode).map f =
      exchange link buf (f failed) fun buf => (decode buf).map fun r => (f r.1, r.2) := by
  unfold exchange
  cases buf with
  | none => rfl
  | some buf =>
      simp only [Option.bind_eq_bind, Option.bind_some, Option.pure_def]
      cases rfschSendRequestReadResponse link buf with
      | none => rfl
      | some r =>
          simp only [Option.bind_some]
          split
          next => rfl
          cases decode r.2 with
          | none => rfl
          | some v =>
              simp only [Option.bind_some, Option.map_some]
              split <;> rfl

/-- A call is its request, an exchange and what it makes of the response. -/
theorem Operation.call_eq (op : Operation) (link : Link) (rfscBuffer : List UInt8) :
    op.call link rfscBuffer = (op.request rfscBuffer).bind fun buf =>
      (rfschSendRequestReadResponse link buf).bind fun r => op.interpret r.1 r.2 := by
  have hcall : op.call link rfscBuffer =
      exchange link (op.request rfscBuffer) op.failed fun buf => op.decode buf := by
    cases op <;> exact exchange_map _ _ _ _ _
  rw [hcall, exchange, Option.bind_eq_bind]
  congr 1
  funext buf
  simp only [Option.bind_eq_bind, Option.pure_def]
  congr 1
  funext r
  unfold Operation.interpret
  split
  next => rfl
  cases op.decode r.2 with
  | none => rfl
  | some v =>
      simp only [Option.bind_some, Option.map_some]
      split <;> rfl

/-! ## Client, server and link -/

/-- One turn of the server's loop on a request: what it leaves in its buffer, and sends. -/
def serverRound (os : OsIo) (basedir mem request : List UInt8) :
    Option (List UInt8 × List UInt8) := do
  match ← serReadRequestPacket mem request with
  | none => return (mem, [])
  | some mem =>
      let (_, mem) ← serverExecuteRequest os basedir mem
      let response ← serSendResponsePacket mem
      return (mem, response)

/-- A request that the server has executed. -/
structure Executed where
  id : Nat
  request : List UInt8
  response : List UInt8
  deriving DecidableEq

/-- A call whose request has been sent, and whether requests or responses of earlier calls
were outstanding then. -/
structure Waiting where
  op : Operation
  id : Nat
  request : List UInt8
  outstanding : Bool

/-- A call that has returned, with the bytes that it took for its response. -/
structure Outcome where
  sent : Waiting
  status : ClientStatus
  result : Result
  read : List (Nat × UInt8)

/-- The requests on their way, the response bytes that the client has not read (in the line
or in its receive buffer) and what has happened.  Requests are numbered. -/
structure System where
  rfscBuffer : List UInt8
  rfsBuffer : List UInt8
  nextId : Nat
  requests : List (Nat × List UInt8)
  line : List (Nat × UInt8)
  executed : List Executed
  waiting : Option Waiting
  outcomes : List Outcome

inductive Action where
  /-- A client function is called when `arrived` bytes are in the receive buffer. -/
  | call (op : Operation) (arrived : Nat)
  /-- The server executes a request; the host gives any results. -/
  | serve (os : OsIo)
  /-- The client reads what has arrived before its timeouts, and the call returns. -/
  | return_ (arrived : Nat)

/-- What cannot happen is skipped: a call while another one waits, or nothing to execute.  A
call that sends nothing fails at once.  There is no result when memory is accessed that is
not there. -/
def System.step (basedir : List UInt8) (g : System) : Action → Option System
  | .call op arrived =>
      match g.waiting with
      | some _ => some g
      | none =>
          (op.request g.rfscBuffer).bind fun buf =>
            let line := g.line.drop arrived
            let buf := rfschEmptyReceiveBuffer buf ((g.line.take arrived).map (·.2))
            (rfschSend buf).map fun
              | none => { g with rfscBuffer := buf, line := line }
              | some request =>
                  { g with
                    rfscBuffer := buf
                    line := line
                    nextId := g.nextId + 1
                    requests := g.requests ++ [(g.nextId, request)]
                    waiting := some ⟨op, g.nextId, request,
                      !line.isEmpty || !g.requests.isEmpty⟩ }
  | .serve os =>
      match g.requests with
      | [] => some g
      | (id, request) :: requests =>
          (serverRound os basedir g.rfsBuffer request).map fun (mem, response) =>
            { g with
              rfsBuffer := mem
              requests := requests
              line := g.line ++ response.map fun b => (id, b)
              executed := g.executed ++ [⟨id, request, response⟩] }
  | .return_ arrived =>
      match g.waiting with
      | none => some g
      | some w =>
          (rfschReceive g.rfscBuffer ((g.line.take arrived).map (·.2))).bind
            fun (status, buf, count) =>
              (w.op.interpret status buf).map fun result =>
                { g with
                  rfscBuffer := buf
                  line := g.line.drop count
                  waiting := none
                  outcomes := g.outcomes ++ [⟨w, status, result, g.line.take count⟩] }

/-- Before the first call. -/
def System.start (rfscBuffer rfsBuffer : List UInt8) : System :=
  ⟨rfscBuffer, rfsBuffer, 0, [], [], [], none, []⟩

/-- What the call has read is what the server has sent for its request, and all of it, and
the result is what this response says. -/
def Own (executed : List Executed) (r : Outcome) : Prop :=
  ∃ response rest, ⟨r.sent.id, r.sent.request, response⟩ ∈ executed ∧
    r.read = response.map (fun b => (r.sent.id, b)) ∧
    r.sent.op.interpret CLIENT_OK (response ++ rest) = some r.result

/-- **Pairing.**  Calls that return a result other than their failure value. -/
structure Paired (g : System) : Prop where
  /-- With nothing outstanding when the request was sent, the result is its own. -/
  own : ∀ r ∈ g.outcomes, r.result ≠ r.sent.op.failed → r.sent.outstanding = false →
    Own g.executed r
  /-- Nothing is outstanding as long as every response has been read in time. -/
  first : ∀ rs r rest, g.outcomes = rs ++ r :: rest → (∀ r' ∈ rs, r'.status = CLIENT_OK) →
    r.sent.outstanding = false

/-! ## One response -/

/-- A response is as long as its header says. -/
def Framed (response : List UInt8) : Prop :=
  ∀ a b lo hi rest, response = a :: b :: lo :: hi :: rest →
    response.length = (Word.ofBytes16 lo hi).toNat

theorem serveRequest_eq (os : OsIo) (basedir mem request : List UInt8) :
    serveRequest os basedir mem request = (serverRound os basedir mem request).map (·.2) := by
  unfold serveRequest serverRound
  cases serReadRequestPacket mem request with
  | none => rfl
  | some packet =>
      cases packet with
      | none => rfl
      | some mem =>
          simp only [Option.bind_eq_bind, Option.bind_some, Option.map_bind]
          cases serverExecuteRequest os basedir mem with
          | none => rfl
          | some r =>
              simp only [Option.bind_some, Function.comp_apply]
              cases serSendResponsePacket r.2 <;> rfl

theorem framed_of_send {mem response : List UInt8}
    (h : serSendResponsePacket mem = some response) : Framed response := by
  unfold serSendResponsePacket at h
  simp only [Option.bind_eq_bind, Option.bind_eq_some_iff, Option.pure_def] at h
  obtain ⟨⟨size, e⟩, hsize, h⟩ := h
  rintro a b lo hi rest rfl
  split at h
  next => cases Option.some.inj h
  split at h
  next hle =>
    have htake := Option.some.inj h
    have hlen := congrArg List.length htake
    rw [List.length_take, Nat.min_eq_left hle] at hlen
    -- The header is in the buffer that the response is taken from.
    have hmem : mem = a :: b :: lo :: hi :: (rest ++ mem.drop size.toNat) := by
      conv_lhs => rw [← List.take_append_drop size.toNat mem]
      dsimp only at htake
      rw [htake]
      rfl
    rw [hmem, getPacketSize_cons] at hsize
    rw [← hlen, (Prod.mk.inj (Option.some.inj hsize)).1]
  next => cases h

theorem framed_of_round {os : OsIo} {basedir mem mem' request response : List UInt8}
    (h : serverRound os basedir mem request = some (mem', response)) : Framed response := by
  unfold serverRound at h
  simp only [Option.bind_eq_bind, Option.bind_eq_some_iff, Option.pure_def] at h
  obtain ⟨packet, -, h⟩ := h
  cases packet with
  | none =>
      obtain ⟨-, rfl⟩ := Prod.mk.inj (Option.some.inj h)
      intro a b lo hi rest hnil
      cases hnil
  | some mem =>
      simp only [Option.bind_eq_some_iff] at h
      obtain ⟨r, -, response', hsend, h⟩ := h
      obtain ⟨-, rfl⟩ := Prod.mk.inj (Option.some.inj h)
      exact framed_of_send hsend

/-- What the client has read when it has read a packet. -/
theorem rfschReceive_ok {buf buf' stream : List UInt8} {count : Nat}
    (h : rfschReceive buf stream = some (CLIENT_OK, buf', count)) :
    ∃ a b lo hi rest, stream = a :: b :: lo :: hi :: rest ∧
      count = 4 + bytesAfterHeader (Word.ofBytes16 lo hi) ∧ count ≤ stream.length ∧
      buf' = stream.take count ++ buf.drop count := by
  unfold rfschReceive at h
  simp only [Option.bind_eq_bind, Option.bind_eq_some_iff, Option.pure_def] at h
  obtain ⟨buf₁, hheader, h⟩ := h
  split at h
  next => cases Option.some.inj h
  next hlong =>
    obtain ⟨a, b, lo, hi, rest, rfl⟩ :
        ∃ a b lo hi rest, stream = a :: b :: lo :: hi :: rest := by
      match stream, hlong with
      | a :: b :: lo :: hi :: rest, _ => exact ⟨a, b, lo, hi, rest, rfl⟩
      | [], hlong | [_], hlong | [_, _], hlong | [_, _, _], hlong =>
          exact absurd (by simp [ELUARPC_START_OFFSET]) hlong
    simp only [Option.bind_eq_some_iff] at h
    obtain ⟨⟨size, e⟩, hsize, h⟩ := h
    obtain ⟨hbuf₁, hroom⟩ := storeAll_eq_some hheader
    have hsplice : buf₁ = a :: b :: lo :: hi :: buf.drop 4 := hbuf₁
    rw [hsplice, getPacketSize_cons] at hsize
    have hsize' : Word.ofBytes16 lo hi = size := (Prod.mk.inj (Option.some.inj hsize)).1
    split at h
    next => cases Option.some.inj h
    simp only [Option.bind_eq_some_iff] at h
    obtain ⟨buf₂, hrest, h⟩ := h
    split at h
    next => cases Option.some.inj h
    next hall =>
      obtain ⟨-, hbuf₂, hcount⟩ : _ ∧ buf₂ = buf' ∧ _ = count := by
        simpa only [Prod.mk.injEq] using Option.some.inj h
      subst hsize'
      generalize hn : bytesAfterHeader (Word.ofBytes16 lo hi) = n at hrest hall hcount
      have hall' : (rest.take n).length = n := not_not.mp hall
      have hcount' : 4 + (rest.take n).length = count := hcount
      have hrest' : storeAll buf₁ 4 (rest.take n) = some buf₂ := hrest
      have htake : (a :: b :: lo :: hi :: rest).take count = [a, b, lo, hi] ++ rest.take n := by
        rw [← hcount', hall', Nat.add_comm]
        rfl
      refine ⟨a, b, lo, hi, rest, rfl, ?_, ?_, ?_⟩
      · rw [← hcount', hall', hn]
      · have hle := List.length_take_le' n rest
        rw [← hcount']
        simp only [List.length_cons]
        omega
      · have hjoin := splice_splice (b := buf) (p := 0) [a, b, lo, hi] (rest.take n)
          (hroom (List.cons_ne_nil _ _))
        have hbuf₂' : buf₂ = splice (splice buf 0 [a, b, lo, hi]) 4 (rest.take n) := by
          rw [(storeAll_eq_some hrest').1, hbuf₁]
          rfl
        rw [← hbuf₂, hbuf₂', htake, ← hcount']
        refine hjoin.trans ?_
        rw [splice, List.take_zero, List.nil_append, Nat.zero_add, List.length_append]
        rfl

/-- A call that has read a packet from the beginning of a response has read the response. -/
theorem receive_framed {buf buf' response : List UInt8} {arrived count : Nat}
    (hframed : Framed response)
    (h : rfschReceive buf (response.take arrived) = some (CLIENT_OK, buf', count)) :
    count = response.length ∧ buf' = response ++ buf.drop count := by
  obtain ⟨a, b, lo, hi, rest, hstream, hcount, hle, hbuf'⟩ := rfschReceive_ok h
  have hresponse : response = a :: b :: lo :: hi :: (rest ++ response.drop arrived) := by
    conv_lhs => rw [← List.take_append_drop arrived response, hstream]
    rfl
  have hlen := hframed _ _ _ _ _ hresponse
  have hfour : 4 ≤ (Word.ofBytes16 lo hi).toNat := by
    rw [← hlen, hresponse]
    simp only [List.length_cons]
    omega
  rw [bytesAfterHeader_eq hfour, ← hlen] at hcount
  have hwhole : count = response.length := by omega
  refine ⟨hwhole, ?_⟩
  have hlong := List.length_take_le arrived response
  have hall : (response.take arrived).take count = response := by
    rw [List.take_take, Nat.min_eq_left (by omega), hwhole, List.take_length]
  rw [hbuf', hall]

/-! ## Runs -/

/-- With nothing outstanding when its request was sent, a call waits for its request to be
executed or for its response, and there is nothing else. -/
def Pending (g : System) (w : Waiting) : Prop :=
  (g.line = [] ∧ g.requests = [(w.id, w.request)]) ∨
    (g.requests = [] ∧ ∃ response, ⟨w.id, w.request, response⟩ ∈ g.executed ∧
      Framed response ∧ g.line = response.map fun b => (w.id, b))

/-- What holds in every state of a run. -/
structure Inv (g : System) : Prop where
  pending : ∀ w ∈ g.waiting, w.outstanding = false → Pending g w
  clean : (∀ r ∈ g.outcomes, r.status = CLIENT_OK) →
    (g.waiting = none → g.line = [] ∧ g.requests = []) ∧ ∀ w ∈ g.waiting, w.outstanding = false
  paired : Paired g

section

variable {basedir : List UInt8} {g g' : System}

theorem Own.mono {executed executed' : List Executed} {r : Outcome} (h : Own executed r)
    (hsub : ∀ e ∈ executed, e ∈ executed') : Own executed' r := by
  obtain ⟨response, rest, hmem, hread, hresult⟩ := h
  exact ⟨response, rest, hsub _ hmem, hread, hresult⟩

theorem inv_call (h : Inv g) (hidle : g.waiting = none) {op : Operation} {arrived : Nat}
    (hstep : g.step basedir (.call op arrived) = some g') : Inv g' := by
  rw [System.step, hidle] at hstep
  obtain ⟨buf, -, hstep⟩ := Option.bind_eq_some_iff.mp hstep
  obtain ⟨sent, -, rfl⟩ := Option.map_eq_some_iff.mp hstep
  cases sent with
  | none =>
      refine ⟨nofun, ?_, ⟨h.paired.own, h.paired.first⟩⟩
      intro hok
      obtain ⟨hclean, -⟩ := h.clean hok
      obtain ⟨hline, hrequests⟩ := hclean hidle
      refine ⟨fun _ => ⟨?_, hrequests⟩, nofun⟩
      dsimp only
      rw [hline, List.drop_nil]
  | some request =>
      refine ⟨?_, ?_, ⟨h.paired.own, h.paired.first⟩⟩
      · intro w hw houtstanding
        obtain rfl := Option.some.inj hw
        simp only [Bool.or_eq_false_iff, Bool.not_eq_false', List.isEmpty_iff] at houtstanding
        refine .inl ⟨houtstanding.1, ?_⟩
        dsimp only
        rw [houtstanding.2, List.nil_append]
      · intro hok
        obtain ⟨hline, hrequests⟩ := (h.clean hok).1 hidle
        refine ⟨nofun, ?_⟩
        intro w hw
        obtain rfl := Option.some.inj hw
        simp [hline, hrequests]

theorem inv_serve (h : Inv g) {os : OsIo} (hstep : g.step basedir (.serve os) = some g') :
    Inv g' := by
  cases hrequests : g.requests with
  | nil =>
      rw [System.step, hrequests] at hstep
      exact Option.some.inj hstep ▸ h
  | cons r requests =>
      obtain ⟨id, request⟩ := r
      rw [System.step, hrequests] at hstep
      obtain ⟨⟨mem, response⟩, hround, rfl⟩ := Option.map_eq_some_iff.mp hstep
      refine ⟨?_, ?_, ?_⟩
      · intro w hw houtstanding
        rcases h.pending w hw houtstanding with ⟨hline, hown⟩ | ⟨hnone, -⟩
        · rw [hrequests] at hown
          obtain ⟨hr, rfl⟩ := List.cons.inj hown
          obtain ⟨rfl, rfl⟩ := Prod.mk.inj hr
          refine .inr ⟨rfl, response, ?_, framed_of_round hround, ?_⟩
          · exact List.mem_append_right _ (List.mem_singleton.mpr rfl)
          · dsimp only
            rw [hline, List.nil_append]
        · rw [hrequests] at hnone
          cases hnone
      · intro hok
        obtain ⟨hclean, hwaiting⟩ := h.clean hok
        refine ⟨fun hidle => ?_, hwaiting⟩
        have hnone := (hclean hidle).2
        rw [hrequests] at hnone
        cases hnone
      · refine ⟨fun r hr hne hout => ?_, h.paired.first⟩
        exact (h.paired.own r hr hne hout).mono fun e he => List.mem_append_left _ he

theorem map_take_line (id arrived : Nat) (response : List UInt8) :
    ((response.map fun b => (id, b)).take arrived).map (·.2) = response.take arrived := by
  rw [← List.map_take, List.map_map]
  exact List.map_id _

/-- A call that has waited with nothing else outstanding, and has read a packet. -/
theorem Pending.receive {w : Waiting} (h : Pending g w) {arrived count : Nat} {buf : List UInt8}
    (hreceive : rfschReceive g.rfscBuffer ((g.line.take arrived).map (·.2)) =
      some (CLIENT_OK, buf, count)) :
    g.requests = [] ∧ g.line.drop count = [] ∧
      ∃ response rest, ⟨w.id, w.request, response⟩ ∈ g.executed ∧
        g.line.take count = response.map (fun b => (w.id, b)) ∧ buf = response ++ rest := by
  rcases h with ⟨hline, -⟩ | ⟨hrequests, response, hmem, hframed, hline⟩
  · rw [hline, List.take_nil, List.map_nil] at hreceive
    obtain ⟨a, b, lo, hi, rest, hnil, -⟩ := rfschReceive_ok hreceive
    cases hnil
  · rw [hline, map_take_line] at hreceive
    obtain ⟨hcount, hbuf⟩ := receive_framed hframed hreceive
    have hlen : (response.map fun b => (w.id, b)).length = count := by
      rw [List.length_map, hcount]
    refine ⟨hrequests, ?_, response, _, hmem, ?_, hbuf⟩
    · rw [hline, ← hlen, List.drop_length]
    · rw [hline, ← hlen, List.take_length]

theorem status_of_ne_failed {op : Operation} {status : ClientStatus} {buf : List UInt8}
    {result : Result} (h : op.interpret status buf = some result) (hne : result ≠ op.failed) :
    status = CLIENT_OK := by
  cases status with
  | CLIENT_OK => rfl
  | CLIENT_ERR => exact absurd (Option.some.inj h).symm hne

theorem inv_return (h : Inv g) {w : Waiting} (hw : g.waiting = some w) {arrived : Nat}
    (hstep : g.step basedir (.return_ arrived) = some g') : Inv g' := by
  rw [System.step, hw] at hstep
  obtain ⟨⟨status, buf, count⟩, hreceive, hstep⟩ := Option.bind_eq_some_iff.mp hstep
  obtain ⟨result, hresult, rfl⟩ := Option.map_eq_some_iff.mp hstep
  refine ⟨nofun, ?_, ?_, ?_⟩
  · intro hok
    have hstatus : status = CLIENT_OK :=
      hok _ (List.mem_append_right _ (List.mem_singleton.mpr rfl))
    have hout := (h.clean fun r hr => hok r (List.mem_append_left _ hr)).2 w hw
    subst hstatus
    obtain ⟨hrequests, hline, -⟩ := (h.pending w hw hout).receive hreceive
    exact ⟨fun _ => ⟨hline, hrequests⟩, nofun⟩
  · intro r hr hne hout
    rcases List.mem_append.mp hr with hr | hr
    · exact h.paired.own r hr hne hout
    · obtain rfl := List.mem_singleton.mp hr
      obtain rfl := status_of_ne_failed hresult hne
      obtain ⟨-, -, response, rest, hmem, hread, rfl⟩ := (h.pending w hw hout).receive hreceive
      exact ⟨response, rest, hmem, hread, hresult⟩
  · intro rs r rest heq hok
    rcases List.eq_nil_or_concat rest with rfl | ⟨rest, last, rfl⟩
    · obtain ⟨hrs, hr⟩ := List.append_inj' heq rfl
      obtain rfl := (List.cons.inj hr).1
      exact (h.clean fun r' hr' => hok r' (hrs ▸ hr')).2 w hw
    · rw [List.concat_eq_append, ← List.cons_append, ← List.append_assoc] at heq
      exact h.paired.first rs r rest (List.append_inj' heq rfl).1 hok

theorem inv_step (a : Action) (h : Inv g) (hstep : g.step basedir a = some g') : Inv g' := by
  cases a with
  | call op arrived =>
      cases hw : g.waiting with
      | none => exact inv_call h hw hstep
      | some w =>
          rw [System.step, hw] at hstep
          exact Option.some.inj hstep ▸ h
  | serve os => exact inv_serve h hstep
  | return_ arrived =>
      cases hw : g.waiting with
      | none =>
          rw [System.step, hw] at hstep
          exact Option.some.inj hstep ▸ h
      | some w => exact inv_return h hw hstep

theorem inv_start (rfscBuffer rfsBuffer : List UInt8) : Inv (.start rfscBuffer rfsBuffer) where
  pending := nofun
  clean _ := ⟨fun _ => ⟨rfl, rfl⟩, nofun⟩
  paired := ⟨nofun, fun rs r rest h => absurd h (by simp [System.start])⟩

/-- **Requests and responses.**  In every run, a call that returns a result other than its
failure value returns what the server has computed for its request, unless requests or
responses of earlier calls were outstanding when the request was sent; and none are as long as
every response has been read in time. -/
theorem responses_paired {rfscBuffer rfsBuffer : List UInt8} {as : List Action}
    (hrun : Transition.run (System.step basedir) (.start rfscBuffer rfsBuffer) as = some g) :
    Paired g :=
  (Transition.invariant_of_steps (fun _ a _ h hstep => inv_step a h hstep)
    (inv_start rfscBuffer rfsBuffer) hrun).paired

end

/-! ## A response that is late -/

/-- A host whose files are where `lseek` wants them. -/
def seekingHost : OsIo where
  open_ _ _ _ := 3
  write _ _ := 0
  read _ _ := none
  close _ := 0
  lseek _ offset _ := offset
  opendir _ := 0
  readdir _ := none
  closedir _ := 0
  read_le := read_none_le
  readdir_le _ _ := nofun

def zeros : List UInt8 := List.replicate 48 0

/-- The first call times out, and its response comes while the second one waits. -/
def lateRun : List Action :=
  [.call (.lseek 3 1 SEEK_SET) 0, .return_ 0, .call (.lseek 3 2 SEEK_SET) 0,
    .serve seekingHost, .return_ 48]

theorem responses_paired_inTime :
    ∃ g, Transition.run (System.step [47]) (.start zeros zeros)
      [.call (.lseek 3 1 SEEK_SET) 0, .serve seekingHost, .return_ 48] = some g ∧ Paired g := by
  have hsome : (Transition.run (System.step [47]) (.start zeros zeros)
      [.call (.lseek 3 1 SEEK_SET) 0, .serve seekingHost, .return_ 48]).isSome = true := by
    decide +kernel
  obtain ⟨g, hrun⟩ := Option.isSome_iff_exists.mp hsome
  exact ⟨g, hrun, responses_paired hrun⟩

/-- The second call returns the first one's result. -/
theorem late_response_taken :
    ∃ g, Transition.run (System.step [47]) (.start zeros zeros) lateRun = some g ∧
      ∃ r ∈ g.outcomes, r.result ≠ r.sent.op.failed ∧ ¬Own g.executed r := by
  have hsome : (Transition.run (System.step [47]) (.start zeros zeros) lateRun).map
      (fun g => (g.outcomes.map fun r => (r.sent.id, decide (r.result ≠ r.sent.op.failed)),
        g.executed.map (·.id))) = some ([(0, false), (1, true)], [0]) := by
    decide +kernel
  obtain ⟨g, hrun, hg⟩ := Option.map_eq_some_iff.mp hsome
  obtain ⟨houtcomes, hexecuted⟩ := Prod.mk.inj hg
  have hmem : (1, true) ∈ g.outcomes.map fun r =>
      (r.sent.id, decide (r.result ≠ r.sent.op.failed)) := by
    rw [houtcomes]
    decide
  obtain ⟨r, hr, hid⟩ := List.mem_map.mp hmem
  obtain ⟨hid, hne⟩ := Prod.mk.inj hid
  refine ⟨g, hrun, r, hr, of_decide_eq_true hne, ?_⟩
  rintro ⟨response, rest, hown, -⟩
  have hone := List.mem_map_of_mem (f := Executed.id) hown
  rw [hexecuted, hid] at hone
  exact Nat.one_ne_zero (List.mem_singleton.mp hone)

end Rfs.Pairing
