import EluaWebServer.Tcp.Requests
import EluaWebServer.Lib.Transition
import EluaWebServer.Lib.Word
import Mathlib.Data.Fintype.Card

/-!
# Finding the connection of a segment

A segment belongs to the connection with its addresses and ports.  Connections are opened by
peers and by the program, closed, and their places used again, and still no two of them that are in
use have the same addresses and ports.
-/

namespace Tcp

open TcpState

variable {n : Nat} {c : Config}

/-- The remote address and the ports. -/
def Conn.ends (conn : Conn) : UipIpaddr × UInt16 × UInt16 := (conn.ripaddr, conn.lport, conn.rport)

/-! ## What keeps the ends of a connection -/

@[simp] theorem ends_enter (conn : Conn) (s : TcpState) : (conn.enter s).ends = conn.ends := rfl

@[simp] theorem ends_addRcvNxt (conn : Conn) (k : UInt16) :
    (conn.addRcvNxt k).ends = conn.ends := rfl

@[simp] theorem ends_window (conn : Conn) (wnd : UInt16) : (conn.window wnd).ends = conn.ends := rfl

@[simp] theorem ends_timeWait (conn : Conn) : conn.timeWait.ends = conn.ends := rfl

@[simp] theorem ends_acked (conn : Conn) : conn.acked.ends = conn.ends := by
  unfold Conn.acked Conn.estimate
  dsimp only
  split <;> rfl

@[simp] theorem ends_notify (conn : Conn) (flags : UipFlags) (datalen : UInt16) (buf : List UInt8)
    (calls : List Call) : (notify conn flags datalen buf calls).1.conn.ends = conn.ends := by
  obtain ⟨b, hb⟩ := conn_notify conn flags datalen buf calls
  rw [hb]
  rfl

@[simp] theorem ends_converse (conn : Conn) (flags : UipFlags) (datalen : UInt16)
    (buf appdata : List UInt8) (calls : List Call) :
    (converse c conn flags datalen buf appdata calls).conn.ends = conn.ends := by
  rcases conn_converse (c := c) conn flags datalen buf appdata calls with h | h | ⟨b, len, h⟩ <;>
    rw [h] <;> rfl

theorem ends_parseOptions {conn conn' : Conn} {seg : Segment} {buf : List UInt8}
    (h : parseOptions c seg buf conn = some conn') : conn'.ends = conn.ends := by
  rcases conn_parseOptions h with rfl | ⟨mss, -, rfl⟩ <;> rfl

@[simp] theorem ends_receive (conn : Conn) (len : UInt16) :
    (conn.receive len).ends = conn.ends := by
  unfold Conn.receive
  split <;> rfl

@[simp] theorem ends_synRcvd (conn : Conn) (acked : Bool) (seg : Segment) (buf : List UInt8)
    (calls : List Call) : (synRcvd c conn acked seg buf calls).conn.ends = conn.ends := by
  unfold synRcvd
  split
  · rw [ends_converse, ends_receive]
    rfl
  · rfl

theorem ends_synSent {conn : Conn} {acked : Bool} {seg : Segment} {buf : List UInt8}
    {calls : List Call} {r : Result} (h : synSent c conn acked seg buf calls = some r) :
    r.conn.ends = conn.ends := by
  unfold synSent at h
  split at h
  · obtain ⟨conn', hparse, rfl⟩ := Option.map_eq_some_iff.mp h
    have hends : conn'.ends = conn.ends := ends_parseOptions hparse
    rw [ends_converse, ← hends]
    rfl
  · rw [← Option.some.inj h]
    exact ends_notify ..

@[simp] theorem ends_established (conn : Conn) (acked : Bool) (seg : Segment) (buf : List UInt8)
    (calls : List Call) : (established c conn acked seg buf calls).conn.ends = conn.ends := by
  unfold established finished exchanged
  split
  · split
    · rfl
    · exact ends_notify ..
  · dsimp only
    generalize seg.datalen - seg.urgent = len
    have hconn : ((if (decide (len ≠ 0) && !conn.stopped) = true then conn.addRcvNxt len
        else conn).window seg.wnd).ends = conn.ends := by
      split <;> rfl
    split
    · rw [ends_converse, hconn]
    · exact hconn

@[simp] theorem ends_lastAck (conn : Conn) (acked : Bool) (seg : Segment) (buf : List UInt8)
    (calls : List Call) : (lastAck conn acked seg buf calls).conn.ends = conn.ends := by
  unfold lastAck
  split
  · exact ends_notify ..
  · rfl

@[simp] theorem ends_closedByPeer (conn : Conn) (seg : Segment) (buf : List UInt8)
    (calls : List Call) : (closedByPeer c conn seg buf calls).conn.ends = conn.ends :=
  ends_notify ..

@[simp] theorem ends_finWait1 (conn : Conn) (acked : Bool) (seg : Segment) (buf : List UInt8)
    (calls : List Call) : (finWait1 c conn acked seg buf calls).conn.ends = conn.ends := by
  unfold finWait1
  have hlen := ends_receive conn seg.datalen
  dsimp only
  generalize conn.receive seg.datalen = conn' at hlen ⊢
  split
  · rw [ends_closedByPeer, ← hlen]
    split <;> rfl
  split
  · exact hlen
  split <;> exact hlen

@[simp] theorem ends_finWait2 (conn : Conn) (seg : Segment) (buf : List UInt8)
    (calls : List Call) : (finWait2 c conn seg buf calls).conn.ends = conn.ends := by
  unfold finWait2
  have hlen := ends_receive conn seg.datalen
  dsimp only
  generalize conn.receive seg.datalen = conn' at hlen ⊢
  split
  · rw [ends_closedByPeer, ends_timeWait, hlen]
  split <;> exact hlen

theorem ends_byState {conn : Conn} {acked : Bool} {seg : Segment} {buf : List UInt8}
    {calls : List Call} {r : Result} (h : byState c conn acked seg buf calls = some r) :
    r.conn.ends = conn.ends := by
  unfold byState at h
  split at h
  case h_2 => exact ends_synSent h
  all_goals rw [← Option.some.inj h]
  case h_1 => exact ends_synRcvd ..
  case h_3 => exact ends_established ..
  case h_4 => exact ends_lastAck ..
  case h_5 => exact ends_finWait1 ..
  case h_6 => exact ends_finWait2 ..
  case h_8 =>
    rw [drop]
    split <;> rfl
  all_goals rfl

/-- A segment does not change the ends of its connection. -/
theorem ends_found {conn : Conn} {seg : Segment} {buf : List UInt8} {calls : List Call} {r : Result}
    (h : found c conn seg buf calls = some r) : r.conn.ends = conn.ends := by
  unfold found at h
  split at h
  · rw [← Option.some.inj h]
    exact ends_notify ..
  split at h
  · rw [← Option.some.inj h, sendAck]
  split at h
  · exact (ends_byState h).trans (ends_acked conn)
  · exact ends_byState h

@[simp] theorem ends_retransmit (conn : Conn) (buf : List UInt8) (calls : List Call) :
    (retransmit c conn buf calls).conn.ends = conn.ends := by
  unfold retransmit
  split
  case h_3 => exact ends_notify ..
  all_goals rfl

@[simp] theorem ends_timedOut (conn : Conn) (buf : List UInt8) (calls : List Call) :
    (timedOut c conn buf calls).conn.ends = conn.ends := by
  unfold timedOut
  split
  · exact ends_notify ..
  · exact ends_retransmit ..

/-- The timer does not change the ends of a connection. -/
theorem ends_periodic (conn : Conn) (forced : Bool) (buf : List UInt8) (calls : List Call) :
    (periodic c forced conn buf calls).conn.ends = conn.ends := by
  unfold periodic
  split
  · rw [drop]
    split <;> rfl
  split
  · split
    · split
      · exact ends_timedOut ..
      · rfl
    · split
      · exact ends_converse ..
      · rfl
  · rfl

/-- The timer does nothing to a connection that is not in use. -/
theorem periodic_of_not_active {conn : Conn} (h : conn.active = false) (forced : Bool)
    (buf : List UInt8) (calls : List Call) :
    periodic c forced conn buf calls = drop conn buf := by
  have hwait : (conn.is TIME_WAIT || conn.is FIN_WAIT_2) = false := by
    unfold Conn.active Conn.is at *
    cases hs : conn.tcpstate <;> simp_all
  unfold periodic
  rw [hwait, h, Bool.and_false]
  rfl

/-! ## The table -/

/-- Two connections that are in use do not have the same ends. -/
def Distinct (conns : Fin n → Conn) : Prop :=
  ∀ i j, (conns i).active = true → (conns j).active = true → (conns i).ends = (conns j).ends → i = j

/-- A connection that is changed keeps its ends while it is in use. -/
theorem Distinct.update_of_ends {conns : Fin n → Conn} (h : Distinct conns) {i : Fin n}
    {conn : Conn} (hends : conn.ends = (conns i).ends)
    (hactive : conn.active = true → (conns i).active = true) :
    Distinct (Function.update conns i conn) := by
  have hkeep : ∀ k, (Function.update conns i conn k).ends = (conns k).ends ∧
      ((Function.update conns i conn k).active = true → (conns k).active = true) := by
    intro k
    by_cases hk : k = i
    · subst hk
      rw [Function.update_self]
      exact ⟨hends, hactive⟩
    · rw [Function.update_of_ne hk]
      exact ⟨rfl, id⟩
  intro j k hj hk heq
  rw [(hkeep j).1, (hkeep k).1] at heq
  exact h j k ((hkeep j).2 hj) ((hkeep k).2 hk) heq

/-- A connection that is opened has ends that no other one in use has. -/
theorem Distinct.update_of_fresh {conns : Fin n → Conn} (h : Distinct conns) {i : Fin n}
    {conn : Conn} (hfresh : ∀ k, (conns k).active = true → (conns k).ends ≠ conn.ends) :
    Distinct (Function.update conns i conn) := by
  intro j k hj hk heq
  by_cases hji : j = i <;> by_cases hki : k = i
  · rw [hji, hki]
  · rw [Function.update_of_ne hki] at hk heq
    rw [hji, Function.update_self] at heq
    exact absurd heq.symm (hfresh k hk)
  · rw [Function.update_of_ne hji] at hj heq
    rw [hki, Function.update_self] at heq
    exact absurd heq (hfresh j hj)
  · rw [Function.update_of_ne hji] at hj heq
    rw [Function.update_of_ne hki] at hk heq
    exact h j k hj hk heq

theorem matches_iff {conn : Conn} {seg : Segment} :
    conn.matches seg = true ↔
      conn.active = true ∧ conn.ends = (seg.srcipaddr, seg.destport, seg.srcport) := by
  unfold Conn.matches Conn.ends
  simp only [Bool.and_eq_true, decide_eq_true_eq, Prod.mk.injEq]
  constructor
  · rintro ⟨⟨⟨hactive, hlport⟩, hrport⟩, hripaddr⟩
    exact ⟨hactive, hripaddr.symm, hlport.symm, hrport.symm⟩
  · rintro ⟨hactive, hripaddr, hlport, hrport⟩
    exact ⟨⟨⟨hactive, hlport.symm⟩, hrport.symm⟩, hripaddr.symm⟩

theorem active_of_demultiplex {conns : Fin n → Conn} {seg : Segment} {i : Fin n}
    (h : demultiplex conns seg = some i) : (conns i).matches seg = true := by
  have hfound := List.find?_some h
  exact hfound

theorem demultiplex_eq_none {conns : Fin n → Conn} {seg : Segment}
    (h : demultiplex conns seg = none) (k : Fin n) : (conns k).matches seg = false := by
  have hnone := List.find?_eq_none.mp h k (List.mem_finRange k)
  simpa using hnone

/-- **The connection of a segment.**  It is the only one that the segment matches. -/
theorem Distinct.demultiplex_iff {conns : Fin n → Conn} (h : Distinct conns) {seg : Segment}
    {i : Fin n} : demultiplex conns seg = some i ↔ (conns i).matches seg = true := by
  refine ⟨active_of_demultiplex, fun hmatch => ?_⟩
  cases hd : demultiplex conns seg with
  | none => simp [demultiplex_eq_none hd i] at hmatch
  | some k =>
      have hk := matches_iff.mp (active_of_demultiplex hd)
      have hi := matches_iff.mp hmatch
      rw [h k i hk.1 hi.1 (hk.2.trans hi.2.symm)]

/-! ## Ports -/

theorem toNat_htons (p : UInt16) : (htons p).toNat = p.toNat / 256 + p.toNat % 256 * 2 ^ 8 := by
  have hp := p.toNat_lt
  have hlow : p.toNat <<< 8 % 2 ^ 16 = (p.toNat % 256) <<< 8 := by
    rw [Nat.shiftLeft_eq, Nat.shiftLeft_eq]
    omega
  have hhigh : p.toNat >>> 8 = p.toNat / 256 := Nat.shiftRight_eq_div_pow ..
  rw [htons, UInt16.toNat_or, UInt16.toNat_shiftLeft, UInt16.toNat_shiftRight]
  change p.toNat <<< 8 % 2 ^ 16 ||| p.toNat >>> 8 = _
  rw [hlow, hhigh, Nat.or_comm, Word.or_shiftLeft_eq_add _ (by omega)]

theorem htons_inj {p q : UInt16} (h : htons p = htons q) : p = q := by
  have hp := toNat_htons p
  have hq := toNat_htons q
  have hplt := p.toNat_lt
  have hqlt := q.toNat_lt
  rw [h] at hp
  refine UInt16.toNat_inj.mp ?_
  omega

theorem nextPort_lt (p : Nat) : nextPort p < 32000 := by
  unfold nextPort
  split <;> omega

/-- The ports that are tried one after the other. -/
theorem iterate_nextPort {p k : Nat} (hp : p < 32000) (hk : k < 27904) :
    nextPort^[k] p = if p + k < 32000 then p + k else p + k - 27904 := by
  induction k with
  | zero =>
      rw [if_pos (by omega)]
      rfl
  | succ k ih =>
      rw [Function.iterate_succ_apply', ih (by omega), nextPort]
      split_ifs <;> omega

/-- They do not come back soon. -/
theorem iterate_nextPort_inj {p j k : Nat} (hp : p < 32000) (hj : j < 27904) (hk : k < 27904)
    (h : nextPort^[j] p = nextPort^[k] p) : j = k := by
  rw [iterate_nextPort hp hj, iterate_nextPort hp hk] at h
  split_ifs at h <;> omega

theorem iterate_nextPort_lt {p : Nat} (hp : p < 32000) (k : Nat) : nextPort^[k] p < 32000 := by
  cases k with
  | zero => exact hp
  | succ k =>
      rw [Function.iterate_succ_apply']
      exact nextPort_lt _

/-- **A port is found.**  There are more ports than connections, so that the search for one that
no connection uses ends. -/
theorem exists_unused_port (hn : n < 27904) (w : World n) :
    ∃ port, uipFindUnusedPort w = some port ∧ port < 32000 ∧
      ∀ i, (w.conns i).active = true → (w.conns i).lport ≠ htons (UInt16.ofNat port) := by
  have hstart := nextPort_lt w.lastport
  have hfound : (uipFindUnusedPort w).isSome = true := by
    refine Loop.whileLoop_isSome_of_taken
      (fun port i => port < 32000 → (w.conns i).lport = htons (UInt16.ofNat port)) ?_ ?_
    · intro port hused
      obtain ⟨i, -, hi⟩ := of_decide_eq_true hused
      exact ⟨i, fun _ => hi⟩
    · intro j k i hj hk htakenj htakenk
      have hjlt := iterate_nextPort_lt hstart j
      have hklt := iterate_nextPort_lt hstart k
      have hsame := htons_inj ((htakenj hjlt).symm.trans (htakenk hklt))
      refine iterate_nextPort_inj hstart (by omega) (by omega) ?_
      have := congrArg UInt16.toNat hsame
      rwa [UInt16.toNat_ofNat_of_lt' (Nat.lt_trans hjlt (by decide)),
        UInt16.toNat_ofNat_of_lt' (Nat.lt_trans hklt (by decide))] at this
  obtain ⟨port, hport⟩ := Option.isSome_iff_exists.mp hfound
  obtain ⟨hunused, k, -, hk⟩ := Loop.whileLoop_eq_some hport
  refine ⟨port, hport, hk ▸ iterate_nextPort_lt hstart k, fun i hactive hlport => ?_⟩
  exact of_decide_eq_false hunused ⟨i, hactive, hlport⟩

/-! ## Runs -/

/-- After a segment a connection is in use only if it has been before, or is the one that the segment
opens. -/
theorem Distinct.uipInput {w : World n} (h : Distinct w.conns) {seg : Segment} {calls : List Call}
    {o : Outcome n} (ho : uipInput c w seg calls = some o) : Distinct o.world.conns := by
  unfold Tcp.uipInput at ho
  dsimp only at ho
  split at ho
  · rw [← Option.some.inj ho]
    exact h
  split at ho
  next i hi =>
    obtain ⟨r, hr, rfl⟩ := Option.map_eq_some_iff.mp ho
    have hmatch := matches_iff.mp (active_of_demultiplex hi)
    exact h.update_of_ends (ends_found hr) fun _ => hmatch.1
  next hnone =>
    split at ho
    · split at ho
      · rw [← Option.some.inj ho]
        exact h
      next i _ =>
        obtain ⟨conn, hconn, rfl⟩ := Option.map_eq_some_iff.mp ho
        refine Distinct.update_of_fresh h (i := i) fun k hactive hends => ?_
        have hk : (w.conns k).matches seg = true :=
          matches_iff.mpr ⟨hactive, hends.trans (ends_parseOptions hconn)⟩
        rw [demultiplex_eq_none hnone k] at hk
        cases hk
    · rw [← Option.some.inj ho]
      exact h

theorem Distinct.uipPeriodic {w : World n} (h : Distinct w.conns) (i : Fin n) (forced : Bool)
    (calls : List Call) : Distinct (uipPeriodic c w i forced calls).world.conns := by
  refine h.update_of_ends (ends_periodic ..) fun hactive => ?_
  by_contra hnot
  have hdrop := periodic_of_not_active (c := c) (by simpa using hnot) forced w.buf calls
  rw [show (periodic c forced (w.conns i) w.buf calls).conn = w.conns i by rw [hdrop]; rfl]
    at hactive
  exact hnot hactive

/-- A port that no connection uses makes a connection with it different from all others. -/
theorem Distinct.prepare {w : World n} (h : Distinct w.conns) {port : Nat}
    (hport : ∀ i, (w.conns i).active = true → (w.conns i).lport ≠ htons (UInt16.ofNat port))
    (i : Fin n) (iss : Seqno) (ripaddr : UipIpaddr) (rport : UInt16) :
    Distinct (Function.update w.conns i ((w.conns i).prepare c iss port ripaddr rport)) := by
  refine h.update_of_fresh fun k hactive hends => hport k hactive ?_
  exact congrArg (fun e => e.2.1) hends

theorem Distinct.step (hn : n < 27904) {w w' : World n} (h : Distinct w.conns) {a : Action n}
    (hstep : step c w a = some w') : Distinct w'.conns := by
  obtain ⟨port, hfound, -, hunused⟩ := exists_unused_port hn w
  unfold Tcp.step outcome at hstep
  cases a with
  | input seg calls =>
      obtain ⟨o, ho, rfl⟩ := Option.map_eq_some_iff.mp hstep
      exact h.uipInput ho
  | periodic i forced calls =>
      rw [← Option.some.inj hstep]
      exact h.uipPeriodic i forced calls
  | connect ripaddr rport =>
      dsimp only at hstep
      rw [uipConnect, hfound] at hstep
      rw [← Option.some.inj hstep]
      dsimp only [World.ignore]
      split
      · exact h
      · exact h.prepare hunused _ _ _ _
  | connectSocket i ripaddr rport =>
      dsimp only at hstep
      rw [uipConnectSocket] at hstep
      split at hstep
      · rw [hfound] at hstep
        rw [← Option.some.inj hstep]
        exact h.prepare hunused _ _ _ _
      · rw [← Option.some.inj hstep]
        exact h
  | socket =>
      rw [← Option.some.inj hstep]
      unfold eluaNetSocket
      dsimp only [World.ignore]
      split
      · exact h
      · refine h.update_of_ends rfl fun hactive => ?_
        simp [Conn.active, Conn.is, Conn.enter] at hactive
  | listen port =>
      rw [← Option.some.inj hstep]
      unfold uipListen
      dsimp only [World.ignore]
      split <;> exact h
  | unlisten port =>
      rw [← Option.some.inj hstep]
      unfold uipUnlisten
      dsimp only [World.ignore]
      split <;> exact h

theorem Distinct.init (ports : Nat) (buf : List UInt8) : Distinct (uipInit n ports buf).conns := by
  intro i j hi
  simp [uipInit, Conn.unused, Conn.active, Conn.is] at hi

/-- **Segments find their connection.**  After any run, of any length, a segment is for a
connection exactly if that is in use and has its addresses and ports, so that there is no more than
one; and a new connection finds a port that is not in use. -/
theorem connections_distinct (hn : n < 27904) (ports : Nat) (buf : List UInt8)
    {as : List (Action n)} {w : World n}
    (hrun : Transition.run (step c) (uipInit n ports buf) as = some w) :
    (∀ seg i, demultiplex w.conns seg = some i ↔ (w.conns i).active = true ∧
      (w.conns i).ends = (seg.srcipaddr, seg.destport, seg.srcport)) ∧
    (∀ i j, (w.conns i).active = true → (w.conns j).active = true →
      (w.conns i).ends = (w.conns j).ends → i = j) ∧
    ∃ port, uipFindUnusedPort w = some port ∧
      ∀ i, (w.conns i).active = true → (w.conns i).lport ≠ htons (UInt16.ofNat port) := by
  have hinv : Distinct w.conns :=
    Transition.invariant_of_steps (fun s a s' (hs : Distinct s.conns) hstep => hs.step hn hstep)
      (Distinct.init ports buf) hrun
  refine ⟨fun seg i => hinv.demultiplex_iff.trans matches_iff, hinv, ?_⟩
  obtain ⟨port, hport, -, hunused⟩ := exists_unused_port hn w
  exact ⟨port, hport, hunused⟩

/-- A board with four connections, and a peer that opens one. -/
def sampleConfig : Config := ⟨(1, 2), 970, 970⟩

def sampleSyn : Segment where
  srcipaddr := (3, 4)
  destipaddr := (1, 2)
  srcport := 5
  destport := 80
  seqno := ⟨0, 0, 1, 0⟩
  ackno := ⟨0, 0, 0, 0⟩
  flags := .SYN
  tcpoffset := 5
  wnd := 100
  urgp := 0
  data := []

def sampleOpening : List (Action 4) := [.listen 80, .input sampleSyn []]

theorem connections_distinct_sample :
    ∃ w : World 4, Transition.run (step sampleConfig) (uipInit 4 4 []) sampleOpening = some w ∧
      (demultiplex w.conns sampleSyn = some 0 ↔ (w.conns 0).active = true ∧
        (w.conns 0).ends = ((3, 4), 80, 5)) := by
  have hsome : (Transition.run (step sampleConfig) (uipInit 4 4 []) sampleOpening).isSome = true := by
    decide
  obtain ⟨w, hw⟩ := Option.isSome_iff_exists.mp hsome
  exact ⟨w, hw, (connections_distinct (by decide) 4 [] hw).1 sampleSyn 0⟩

end Tcp
