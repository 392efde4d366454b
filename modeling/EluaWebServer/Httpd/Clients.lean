import EluaWebServer.Lib.Transition
import Mathlib.Data.List.Basic

/-!
# The table of clients

A client keeps its Lua state over its connections: `httpd_appcall` finds the
state by the remote address in `connection[]`, `http_run_elua` closes and opens
it, and `httpd_appcall` stores it again.  A page may run any scripts in between.
-/

namespace Httpd.Clients

abbrev UipIpaddr := UInt16 × UInt16

/-- A remote address other than 0.0.0.0, which marks an empty slot. -/
abbrev RemoteAddr := { a : UipIpaddr // a ≠ (0, 0) }

abbrev LuaState := Nat

/-- An entry of `connection[]`. -/
structure Slot where
  L : Option LuaState
  ripaddr : UipIpaddr
  deriving DecidableEq

/-- Of a `struct httpd_state`, what is not the buffers and the threads. -/
structure HttpdState where
  timer : UInt8
  ripaddr : UipIpaddr
  L : Option LuaState
  httpConnectionNr : Nat
  newPhtPage : Bool
  deriving DecidableEq

/-- What has been done with Lua states, with the address it was done for. -/
structure LuaLog where
  opened : List (LuaState × UipIpaddr)
  closed : List LuaState
  used : List (LuaState × UipIpaddr)
  deriving DecidableEq

/-- `lua_open`; every state is a new one. -/
def LuaLog.open_ (log : LuaLog) (a : UipIpaddr) : LuaState × LuaLog :=
  (log.opened.length, { log with opened := (log.opened.length, a) :: log.opened })

/-- `lua_close`. -/
def LuaLog.close (log : LuaLog) (l : LuaState) : LuaLog :=
  { log with closed := l :: log.closed }

/-- A script is run. -/
def LuaLog.use (log : LuaLog) (l : LuaState) (a : UipIpaddr) : LuaLog :=
  { log with used := (l, a) :: log.used }

/-- The state of a new page is a new one. -/
def closeOfNewPage (s : HttpdState) (log : LuaLog) : HttpdState × LuaLog :=
  match s.newPhtPage, s.L with
  | true, some l => ({ s with L := none, newPhtPage := false }, log.close l)
  | _, _ => (s, log)

/-- `http_run_elua`, up to where the script is run; `memory` says whether
`lua_open` gets any. -/
def httpRunElua (memory : Bool) (s : HttpdState) (log : LuaLog) : HttpdState × LuaLog :=
  let (s, log) := closeOfNewPage s log
  match s.L with
  | some l => (s, log.use l s.ripaddr)
  | none =>
      if memory then
        let (l, log) := log.open_ s.ripaddr
        ({ s with L := some l }, log.use l s.ripaddr)
      else (s, log)

/-- What a call of `handle_connection` does with Lua states. -/
inductive Action where
  /-- `handle_output` begins a page with tags. -/
  | newPage
  | runElua (memory : Bool)
  deriving DecidableEq

def act (s : HttpdState) (log : LuaLog) : Action → HttpdState × LuaLog
  | .newPage => ({ s with newPhtPage := true }, log)
  | .runElua memory => httpRunElua memory s log

def handleConnection (s : HttpdState) (log : LuaLog) : List Action → HttpdState × LuaLog
  | [] => (s, log)
  | a :: as =>
      let (s, log) := act s log a
      handleConnection s log as

/-- What uIP calls the application for. -/
inductive UipEvent where
  /-- Closed, aborted or timed out. -/
  | closed
  | connected (actions : List Action)
  | poll (actions : List Action)
  | other (actions : List Action)
  deriving DecidableEq

/-- What is done for an event, and whether the connection is aborted. -/
def handleEvent (s : HttpdState) (log : LuaLog) : UipEvent → (HttpdState × LuaLog) × Bool
  | .closed => ((s, log), false)
  | .connected as => (handleConnection { s with timer := 0 } log as, false)
  | .poll as =>
      (handleConnection { s with timer := s.timer + 1 } log as, decide (20 ≤ s.timer + 1))
  | .other as => (handleConnection { s with timer := 0 } log as, false)

structure World (Conn : Type) where
  connection : List Slot
  appstate : Conn → HttpdState
  log : LuaLog

section

variable {Conn : Type}

structure Appcall (Conn : Type) where
  uipConn : Conn
  ripaddr : RemoteAddr
  event : UipEvent

/-- The slot of a used one, when there is no other. -/
def nextSlot (webMaxClient : Nat) (nr : Nat) : Nat :=
  if nr < webMaxClient - 1 then nr + 1 else 0

/-- The slot of an address. -/
def findClient (connection : List Slot) (a : UipIpaddr) : Option Nat :=
  connection.findIdx? fun c => a = c.ripaddr

/-- The slot for a new address. -/
def newSlot (connection : List Slot) (nr : Nat) : Nat :=
  match connection.findIdx? fun c => c.ripaddr = (0, 0) with
  | some i => i
  | none => nextSlot connection.length nr

/-- `connection[]` has `WEB_MAX_CLIENT` slots.  There is no result for a slot that
is not one of them. -/
def httpdAppcall [DecidableEq Conn] (w : World Conn) (e : Appcall Conn) : Option (World Conn × Bool) :=
  let s := { w.appstate e.uipConn with ripaddr := e.ripaddr, L := none }
  match findClient w.connection s.ripaddr with
  | some i =>
      (w.connection[i]?).bind fun c =>
        let s := { s with httpConnectionNr := i, L := c.L }
        let ((s, log), aborted) := handleEvent s w.log e.event
        (w.connection[s.httpConnectionNr]?).map fun c =>
          let connection :=
            if s.L ≠ c.L then w.connection.set s.httpConnectionNr { c with L := s.L }
            else w.connection
          (⟨connection, Function.update w.appstate e.uipConn s, log⟩, aborted)
  | none =>
      let ((s, log), aborted) := handleEvent s w.log e.event
      let s := { s with httpConnectionNr := newSlot w.connection s.httpConnectionNr }
      if s.httpConnectionNr < w.connection.length then
        some (⟨w.connection.set s.httpConnectionNr ⟨s.L, s.ripaddr⟩,
          Function.update w.appstate e.uipConn s, log⟩, aborted)
      else none

/-- One call, without whether the connection is aborted. -/
def step [DecidableEq Conn] (w : World Conn) (e : Appcall Conn) : Option (World Conn) :=
  (httpdAppcall w e).map (·.1)

/-- Nothing is used yet: all of it is static memory. -/
def World.init (webMaxClient : Nat) : World Conn :=
  ⟨List.replicate webMaxClient ⟨none, (0, 0)⟩, fun _ => ⟨0, (0, 0), none, 0, false⟩, ⟨[], [], []⟩⟩

/-! ## What the table is for -/

/-- A Lua state that has been opened for an address, and not closed. -/
def LuaLog.Open (log : LuaLog) (l : LuaState) (a : UipIpaddr) : Prop :=
  (l, a) ∈ log.opened ∧ l ∉ log.closed

/-- At most one slot carries an address. -/
def Unique (connection : List Slot) : Prop :=
  ∀ (i j : Nat) (c d : Slot), connection[i]? = some c → connection[j]? = some d →
    c.ripaddr = d.ripaddr → c.ripaddr ≠ (0, 0) → i = j

/-- Every open state is in the slot of the address it was opened for. -/
def Live (connection : List Slot) (log : LuaLog) : Prop :=
  ∀ l a, log.Open l a → ∃ i : Nat, connection[i]? = some ⟨some l, a⟩

/-- One slot for an address, no state is lost, and none is used for another
address. -/
def TableOk (w : World Conn) : Prop :=
  Unique w.connection ∧ Live w.connection w.log ∧
    ∀ l a, (l, a) ∈ w.log.used → (l, a) ∈ w.log.opened ∧ ∀ b, (l, b) ∈ w.log.opened → b = a

/-- A client that is in no slot, when no slot is empty, gets one without a Lua
state. -/
def SlotFree (w : World Conn) (e : Appcall Conn) : Prop :=
  (∀ c ∈ w.connection, c.ripaddr ≠ e.ripaddr.1 ∧ c.ripaddr ≠ (0, 0)) →
    ∀ c, w.connection[nextSlot w.connection.length (w.appstate e.uipConn).httpConnectionNr]? =
      some c → c.L = none

instance (w : World Conn) (e : Appcall Conn) : Decidable (SlotFree w e) :=
  decidable_of_iff
    ((∀ c ∈ w.connection, c.ripaddr ≠ e.ripaddr.1 ∧ c.ripaddr ≠ (0, 0)) →
      ∀ c ∈ w.connection[nextSlot w.connection.length (w.appstate e.uipConn).httpConnectionNr]?,
        c.L = none) Iff.rfl

/-! ## Lua states -/

/-- Lua states are opened once, for the address they are used for. -/
structure LuaLog.WellFormed (log : LuaLog) : Prop where
  openedIds : ∀ l a, (l, a) ∈ log.opened → l < log.opened.length
  closedIds : ∀ l ∈ log.closed, l < log.opened.length
  once : ∀ l a b, (l, a) ∈ log.opened → (l, b) ∈ log.opened → a = b
  used : ∀ l a, (l, a) ∈ log.used → (l, a) ∈ log.opened
  ne_zero : ∀ l a, (l, a) ∈ log.opened → a ≠ (0, 0)

/-- During a call: every open state is in one of the other slots (which is what `P`
says) or in the structure of the connection, and not in both. -/
structure Keeps (P : LuaState → UipIpaddr → Prop) (s : HttpdState) (log : LuaLog) : Prop where
  wellFormed : log.WellFormed
  ripaddr_ne : s.ripaddr ≠ (0, 0)
  live : ∀ l a, log.Open l a → P l a ∨ (s.L = some l ∧ s.ripaddr = a)
  other : ∀ l a, P l a → log.Open l a ∧ s.L ≠ some l
  own : ∀ l, s.L = some l → log.Open l s.ripaddr

variable {P : LuaState → UipIpaddr → Prop} {s s' : HttpdState} {log log' : LuaLog}

theorem open_close {l m : LuaState} {a : UipIpaddr} :
    (log.close l).Open m a ↔ log.Open m a ∧ m ≠ l := by
  unfold LuaLog.Open LuaLog.close
  rw [List.mem_cons, not_or]
  tauto

theorem open_open (h : log.WellFormed) {b : UipIpaddr} {m : LuaState} {a : UipIpaddr} :
    (log.open_ b).2.Open m a ↔ log.Open m a ∨ (m = log.opened.length ∧ a = b) := by
  have hclosed : log.opened.length ∉ log.closed := fun hm => Nat.lt_irrefl _ (h.closedIds _ hm)
  unfold LuaLog.Open LuaLog.open_
  rw [List.mem_cons, Prod.mk.injEq]
  constructor
  · intro hopen
    tauto
  · intro hopen
    cases hopen with
    | inl hbefore => exact ⟨Or.inr hbefore.1, hbefore.2⟩
    | inr hnew => exact ⟨Or.inl hnew, hnew.1 ▸ hclosed⟩

theorem LuaLog.WellFormed.close (h : log.WellFormed) {l : LuaState} {a : UipIpaddr}
    (hopen : log.Open l a) : (log.close l).WellFormed where
  openedIds := h.openedIds
  closedIds := by
    intro m hm
    cases hm with
    | head => exact h.openedIds l a hopen.1
    | tail _ hm => exact h.closedIds m hm
  once := h.once
  used := h.used
  ne_zero := h.ne_zero

theorem LuaLog.WellFormed.open_ (h : log.WellFormed) {b : UipIpaddr} (hb : b ≠ (0, 0)) :
    (log.open_ b).2.WellFormed where
  openedIds := by
    intro l a hl
    cases hl with
    | head => exact Nat.lt_succ_self _
    | tail _ hl => exact Nat.lt_succ_of_lt (h.openedIds l a hl)
  closedIds := fun l hl => Nat.lt_succ_of_lt (h.closedIds l hl)
  once := by
    intro l a c ha hc
    -- A number that has been given to a state is not given to another one.
    cases ha with
    | head =>
        cases hc with
        | head => rfl
        | tail _ hc => exact absurd (h.openedIds _ _ hc) (Nat.lt_irrefl _)
    | tail _ ha =>
        cases hc with
        | head => exact absurd (h.openedIds _ _ ha) (Nat.lt_irrefl _)
        | tail _ hc => exact h.once l a c ha hc
  used := fun l a hl => List.mem_cons_of_mem _ (h.used l a hl)
  ne_zero := by
    intro l a hl
    cases hl with
    | head => exact hb
    | tail _ hl => exact h.ne_zero l a hl

theorem LuaLog.WellFormed.use (h : log.WellFormed) {l : LuaState} {a : UipIpaddr}
    (hopen : log.Open l a) : (log.use l a).WellFormed where
  openedIds := h.openedIds
  closedIds := h.closedIds
  once := h.once
  used := by
    intro m b hm
    cases hm with
    | head => exact hopen.1
    | tail _ hm => exact h.used m b hm
  ne_zero := h.ne_zero

theorem Keeps.close {l : LuaState} (h : Keeps P s log) (hL : s.L = some l) (b : Bool) :
    Keeps P { s with L := none, newPhtPage := b } (log.close l) where
  wellFormed := h.wellFormed.close (h.own l hL)
  ripaddr_ne := h.ripaddr_ne
  live := by
    intro m a hopen
    obtain ⟨hbefore, hne⟩ := open_close.mp hopen
    cases h.live m a hbefore with
    | inl hP => exact Or.inl hP
    | inr hs => exact absurd (Option.some.inj (hL.symm.trans hs.1)).symm hne
  other := by
    intro m a hP
    obtain ⟨hopen, hnot⟩ := h.other m a hP
    have hne : m ≠ l := fun heq => hnot (heq ▸ hL)
    exact ⟨open_close.mpr ⟨hopen, hne⟩, nofun⟩
  own := nofun

theorem Keeps.open_ (h : Keeps P s log) (hL : s.L = none) :
    Keeps P { s with L := some log.opened.length } (log.open_ s.ripaddr).2 where
  wellFormed := h.wellFormed.open_ h.ripaddr_ne
  ripaddr_ne := h.ripaddr_ne
  live := by
    intro m a hopen
    cases (open_open h.wellFormed).mp hopen with
    | inl hbefore =>
        cases h.live m a hbefore with
        | inl hP => exact Or.inl hP
        | inr hs => exact absurd (hL.symm.trans hs.1) nofun
    | inr hnew =>
        obtain ⟨rfl, rfl⟩ := hnew
        exact Or.inr ⟨rfl, rfl⟩
  other := by
    intro m a hP
    have hopen := (h.other m a hP).1
    refine ⟨(open_open h.wellFormed).mpr (Or.inl hopen), ?_⟩
    intro heq
    have hlt := h.wellFormed.openedIds m a hopen.1
    rw [← Option.some.inj heq] at hlt
    exact Nat.lt_irrefl _ hlt
  own := by
    intro m hm
    obtain rfl := Option.some.inj hm
    exact (open_open h.wellFormed).mpr (Or.inr ⟨rfl, rfl⟩)

theorem Keeps.use {l : LuaState} (h : Keeps P s log) (hL : s.L = some l) :
    Keeps P s (log.use l s.ripaddr) where
  wellFormed := h.wellFormed.use (h.own l hL)
  ripaddr_ne := h.ripaddr_ne
  live := h.live
  other := h.other
  own := h.own

theorem Keeps.of_nr (h : Keeps P s log) (k : Nat) :
    Keeps P { s with httpConnectionNr := k } log :=
  ⟨h.wellFormed, h.ripaddr_ne, h.live, h.other, h.own⟩

/-- What a part of a call does: it keeps `Keeps`, whatever the other slots hold, the
address and the number of the slot. -/
structure Carries (s : HttpdState) (log : LuaLog) (r : HttpdState × LuaLog) : Prop where
  keeps : ∀ {P : LuaState → UipIpaddr → Prop}, Keeps P s log → Keeps P r.1 r.2
  ripaddr : r.1.ripaddr = s.ripaddr
  nr : r.1.httpConnectionNr = s.httpConnectionNr

theorem Carries.trans {r : HttpdState × LuaLog} (h : Carries s log (s', log'))
    (hr : Carries s' log' r) : Carries s log r where
  keeps := fun hkeeps => hr.keeps (h.keeps hkeeps)
  ripaddr := hr.ripaddr.trans h.ripaddr
  nr := hr.nr.trans h.nr

theorem carries_closeOfNewPage (s : HttpdState) (log : LuaLog) :
    Carries s log (closeOfNewPage s log) := by
  unfold closeOfNewPage
  split
  next l _ hL => exact ⟨fun h => h.close hL false, rfl, rfl⟩
  next => exact ⟨fun h => h, rfl, rfl⟩

theorem carries_httpRunElua (memory : Bool) (s : HttpdState) (log : LuaLog) :
    Carries s log (httpRunElua memory s log) := by
  have hclose := carries_closeOfNewPage s log
  unfold httpRunElua
  generalize closeOfNewPage s log = r at hclose ⊢
  obtain ⟨s₁, log₁⟩ := r
  apply hclose.trans
  dsimp only
  cases hL : s₁.L with
  | some l => exact ⟨fun h => h.use hL, rfl, rfl⟩
  | none =>
      cases memory with
      | true => exact ⟨fun h => (h.open_ hL).use rfl, rfl, rfl⟩
      | false => exact ⟨fun h => h, rfl, rfl⟩

theorem carries_handleConnection (s : HttpdState) (log : LuaLog) (as : List Action) :
    Carries s log (handleConnection s log as) := by
  induction as generalizing s log with
  | nil => exact ⟨fun h => h, rfl, rfl⟩
  | cons a as ih =>
      refine Carries.trans ?_ (ih _ _)
      cases a with
      | newPage =>
          exact ⟨fun h => ⟨h.wellFormed, h.ripaddr_ne, h.live, h.other, h.own⟩, rfl, rfl⟩
      | runElua memory => exact carries_httpRunElua memory s log

theorem carries_handleEvent (s : HttpdState) (log : LuaLog) (e : UipEvent) :
    Carries s log (handleEvent s log e).1 := by
  have htimer : ∀ t : UInt8, Carries s log ({ s with timer := t }, log) := fun t =>
    ⟨fun h => ⟨h.wellFormed, h.ripaddr_ne, h.live, h.other, h.own⟩, rfl, rfl⟩
  cases e with
  | closed => exact ⟨fun h => h, rfl, rfl⟩
  | connected as => exact (htimer _).trans (carries_handleConnection _ log as)
  | poll as => exact (htimer _).trans (carries_handleConnection _ log as)
  | other as => exact (htimer _).trans (carries_handleConnection _ log as)

/-! ## The table -/

section

variable {connection : List Slot} {a : UipIpaddr} {k : Nat}

/-- No slot but `k` carries the address. -/
def OnlyAt (connection : List Slot) (a : UipIpaddr) (k : Nat) : Prop :=
  ∀ (j : Nat) (c : Slot), j ≠ k → connection[j]? = some c → c.ripaddr ≠ a

/-- A state is in one of the other slots. -/
def HeldBut (connection : List Slot) (k : Nat) (l : LuaState) (a : UipIpaddr) : Prop :=
  ∃ j : Nat, j ≠ k ∧ connection[j]? = some ⟨some l, a⟩

/-- Every state in a slot is open, for the address of the slot. -/
def HoldsOpen (connection : List Slot) (log : LuaLog) : Prop :=
  ∀ (i : Nat) (l : LuaState) (a : UipIpaddr), connection[i]? = some ⟨some l, a⟩ → log.Open l a

/-- A slot after one has been set. -/
theorem getElem?_set_cases {j : Nat} {c d : Slot} (h : (connection.set k d)[j]? = some c) :
    (j = k ∧ c = d) ∨ (j ≠ k ∧ connection[j]? = some c) := by
  by_cases hj : k = j
  · rw [List.getElem?_set, if_pos hj] at h
    split at h
    · exact Or.inl ⟨hj.symm, (Option.some.inj h).symm⟩
    · cases h
  · rw [List.getElem?_set_ne hj] at h
    exact Or.inr ⟨Ne.symm hj, h⟩

theorem unique_set (h : Unique connection) (honly : OnlyAt connection a k) (L : Option LuaState) :
    Unique (connection.set k ⟨L, a⟩) := by
  intro i j c d hi hj heq hne
  rcases getElem?_set_cases hi with ⟨hik, rfl⟩ | ⟨hik, hi'⟩
  · rcases getElem?_set_cases hj with ⟨hjk, -⟩ | ⟨hjk, hj'⟩
    · exact hik.trans hjk.symm
    · exact absurd heq.symm (honly j d hjk hj')
  · rcases getElem?_set_cases hj with ⟨hjk, rfl⟩ | ⟨hjk, hj'⟩
    · exact absurd heq (honly i c hik hi')
    · exact h i j c d hi' hj' heq hne

theorem holdsOpen_set (h : Keeps P s log) (hP : ∀ l a, HeldBut connection k l a → P l a) :
    HoldsOpen (connection.set k ⟨s.L, s.ripaddr⟩) log := by
  intro i l a hi
  rcases getElem?_set_cases hi with ⟨-, heq⟩ | ⟨hik, hi⟩
  · obtain ⟨hL, rfl⟩ := Slot.mk.inj heq
    exact h.own l hL.symm
  · exact (h.other l a (hP l a ⟨i, hik, hi⟩)).1

theorem live_set (hk : k < connection.length) (h : Keeps (HeldBut connection k) s log) :
    Live (connection.set k ⟨s.L, s.ripaddr⟩) log := by
  intro l a hopen
  cases h.live l a hopen with
  | inl hheld =>
      obtain ⟨j, hjk, hj⟩ := hheld
      exact ⟨j, by rw [List.getElem?_set_ne (Ne.symm hjk), hj]⟩
  | inr hown =>
      obtain ⟨hL, rfl⟩ := hown
      exact ⟨k, by rw [List.getElem?_set_self hk, hL]⟩

/-- The state of a slot that is given to another address is lost. -/
theorem not_live_set (hunique : Unique connection) {l : LuaState} (hopen : log.Open l a)
    (ha : a ≠ (0, 0)) (hk : connection[k]? = some ⟨some l, a⟩) {d : Slot} (hd : d.ripaddr ≠ a) :
    ¬Live (connection.set k d) log := by
  intro hlive
  obtain ⟨j, hj⟩ := hlive l a hopen
  rcases getElem?_set_cases hj with ⟨-, heq⟩ | ⟨hjk, hj⟩
  · exact hd (heq ▸ rfl)
  · exact hjk (hunique j k _ _ hj hk rfl ha)

end

/-! ## Calls -/

/-- What holds between any two calls. -/
structure Inv (webMaxClient : Nat) (w : World Conn) : Prop where
  slots : w.connection.length = webMaxClient
  nr : ∀ conn, (w.appstate conn).httpConnectionNr < webMaxClient
  wellFormed : w.log.WellFormed
  unique : Unique w.connection
  holdsOpen : HoldsOpen w.connection w.log

variable {webMaxClient : Nat} {w : World Conn} {e : Appcall Conn}

theorem nextSlot_lt (hpos : 0 < webMaxClient) (nr : Nat) :
    nextSlot webMaxClient nr < webMaxClient := by
  unfold nextSlot
  split <;> omega

theorem Inv.empty_slot (h : Inv webMaxClient w) {i : Nat} {c : Slot}
    (hi : w.connection[i]? = some c) (hc : c.ripaddr = (0, 0)) : c.L = none := by
  obtain ⟨L, a⟩ := c
  cases L with
  | none => rfl
  | some l => exact absurd hc (h.wellFormed.ne_zero l a (h.holdsOpen i l a hi).1)

theorem exists_of_findClient {connection : List Slot} {a : UipIpaddr} {i : Nat}
    (h : findClient connection a = some i) :
    ∃ c, connection[i]? = some c ∧ c.ripaddr = a := by
  obtain ⟨hi, hc, -⟩ := List.findIdx?_eq_some_iff_getElem.mp h
  exact ⟨connection[i], List.getElem?_eq_getElem hi, (of_decide_eq_true hc).symm⟩

theorem ne_of_findClient {connection : List Slot} {a : UipIpaddr}
    (h : findClient connection a = none) : ∀ c ∈ connection, c.ripaddr ≠ a := by
  intro c hc heq
  have hno := List.findIdx?_eq_none_iff.mp h c hc
  exact of_decide_eq_false hno heq.symm

variable [DecidableEq Conn]

/-- The end of a call. -/
theorem Inv.update (h : Inv webMaxClient w) {k : Nat} (hnr : s.httpConnectionNr = k)
    (hk : k < webMaxClient) (conn : Conn)
    (hkeeps : Keeps P s log) (hP : ∀ l a, HeldBut w.connection k l a → P l a)
    (honly : OnlyAt w.connection s.ripaddr k) :
    Inv webMaxClient ⟨w.connection.set k ⟨s.L, s.ripaddr⟩,
      Function.update w.appstate conn s, log⟩ where
  slots := List.length_set.trans h.slots
  nr := by
    intro c
    dsimp only
    by_cases hc : c = conn
    · rw [hc, Function.update_self, hnr]
      exact hk
    · rw [Function.update_of_ne hc]
      exact h.nr c
  wellFormed := hkeeps.wellFormed
  unique := unique_set h.unique honly s.L
  holdsOpen := holdsOpen_set hkeeps hP

/-- A call of a client that has a slot. -/
theorem step_present (h : Inv webMaxClient w) (hlive : Live w.connection w.log) {i : Nat}
    (hfind : findClient w.connection e.ripaddr.1 = some i) :
    ∃ w', step w e = some w' ∧ Inv webMaxClient w' ∧ Live w'.connection w'.log := by
  obtain ⟨⟨L, a⟩, hi, ha⟩ := exists_of_findClient hfind
  dsimp only at ha
  subst ha
  have hlt : i < w.connection.length := (List.getElem?_eq_some_iff.mp hi).1
  have honly : OnlyAt w.connection e.ripaddr.1 i := fun j c hj hc heq =>
    hj (h.unique j i c _ hc hi heq (heq ▸ e.ripaddr.2))
  obtain ⟨s, hs⟩ : ∃ s : HttpdState,
      s = { w.appstate e.uipConn with ripaddr := e.ripaddr, L := L, httpConnectionNr := i } :=
    ⟨_, rfl⟩
  have hkeeps : Keeps (HeldBut w.connection i) s w.log := by
    subst hs
    constructor
    · exact h.wellFormed
    · exact e.ripaddr.2
    · intro l a hopen
      obtain ⟨j, hj⟩ := hlive l a hopen
      by_cases hji : j = i
      · obtain ⟨hL, ha⟩ := Slot.mk.inj (Option.some.inj (hi.symm.trans (hji ▸ hj)))
        exact Or.inr ⟨hL, ha⟩
      · exact Or.inl ⟨j, hji, hj⟩
    · rintro l a ⟨j, hji, hj⟩
      have hopen := h.holdsOpen j l a hj
      refine ⟨hopen, ?_⟩
      rintro rfl
      have ha := h.wellFormed.once l a _ hopen.1 (h.holdsOpen i l _ hi).1
      exact honly j _ hji hj ha
    · rintro l rfl
      exact h.holdsOpen i l _ hi
  have hcarries := carries_handleEvent s w.log e.event
  unfold step httpdAppcall
  dsimp only
  rw [hfind]
  dsimp only
  rw [hi, Option.bind_some]
  dsimp only
  rw [← hs]
  generalize handleEvent s w.log e.event = r at hcarries ⊢
  obtain ⟨⟨s', log'⟩, aborted⟩ := r
  obtain ⟨hkeep, hripaddr, hnr⟩ := hcarries
  dsimp only at hripaddr hnr
  rw [hs] at hripaddr hnr
  dsimp only at hripaddr hnr
  have hkeeps' : Keeps (HeldBut w.connection i) s' log' := hkeep hkeeps
  have hset : (if s'.L ≠ L then w.connection.set i ⟨s'.L, e.ripaddr⟩ else w.connection) =
      w.connection.set i ⟨s'.L, s'.ripaddr⟩ := by
    rw [hripaddr]
    by_cases hL : s'.L = L
    · obtain ⟨hlt, heq⟩ := List.getElem?_eq_some_iff.mp hi
      rw [if_neg (not_not.mpr hL), hL, ← heq, List.set_getElem_self]
    · rw [if_pos hL]
  dsimp only
  rw [hnr, hi, Option.map_some, Option.map_some]
  dsimp only
  rw [hset]
  refine ⟨_, rfl, ?_, live_set hlt hkeeps'⟩
  exact h.update hnr (h.slots ▸ hlt) e.uipConn hkeeps' (fun _ _ hheld => hheld)
    (hripaddr ▸ honly)

theorem newSlot_lt {connection : List Slot} (hpos : 0 < connection.length) (nr : Nat) :
    newSlot connection nr < connection.length := by
  unfold newSlot
  split
  next i hi => exact (List.findIdx?_eq_some_iff_getElem.mp hi).1
  next => exact nextSlot_lt hpos nr

omit [DecidableEq Conn] in
/-- The slot that a new client gets. -/
theorem slotFree_iff (h : Inv webMaxClient w) (hne : ∀ c ∈ w.connection, c.ripaddr ≠ e.ripaddr.1)
    {c : Slot}
    (hc : w.connection[newSlot w.connection (w.appstate e.uipConn).httpConnectionNr]? = some c) :
    SlotFree w e ↔ c.L = none := by
  unfold newSlot at hc
  split at hc
  next i hi =>
    obtain ⟨hlt, hzero, -⟩ := List.findIdx?_eq_some_iff_getElem.mp hi
    have hci : w.connection[i] = c := (List.getElem?_eq_some_iff.mp hc).2
    rw [hci, decide_eq_true_eq] at hzero
    apply iff_of_true
    · intro hused
      exact absurd hzero (hused c (List.mem_of_getElem? hc)).2
    · exact h.empty_slot hc hzero
  next hnone =>
    have hused : ∀ c ∈ w.connection, c.ripaddr ≠ e.ripaddr.1 ∧ c.ripaddr ≠ (0, 0) := by
      intro d hd
      exact ⟨hne d hd, of_decide_eq_false (List.findIdx?_eq_none_iff.mp hnone d hd)⟩
    constructor
    · exact fun hfree => hfree hused c hc
    · intro hL _ d hd
      rw [← Option.some.inj (hc.symm.trans hd)]
      exact hL

/-- A call of a new client. -/
theorem step_new (h : Inv webMaxClient w) (hlive : Live w.connection w.log)
    (hpos : 0 < webMaxClient) (hfind : findClient w.connection e.ripaddr.1 = none) :
    ∃ w', step w e = some w' ∧ Inv webMaxClient w' ∧
      (Live w'.connection w'.log ↔ SlotFree w e) := by
  have hne := ne_of_findClient hfind
  obtain ⟨s, hs⟩ : ∃ s : HttpdState,
      s = { w.appstate e.uipConn with ripaddr := e.ripaddr, L := none } := ⟨_, rfl⟩
  have hkeeps : Keeps (fun l a => ∃ j : Nat, w.connection[j]? = some ⟨some l, a⟩) s w.log := by
    subst hs
    constructor
    · exact h.wellFormed
    · exact e.ripaddr.2
    · exact fun l a hopen => Or.inl (hlive l a hopen)
    · rintro l a ⟨j, hj⟩
      exact ⟨h.holdsOpen j l a hj, nofun⟩
    · exact nofun
  have hcarries := carries_handleEvent s w.log e.event
  unfold step httpdAppcall
  dsimp only
  rw [hfind]
  dsimp only
  rw [← hs]
  generalize handleEvent s w.log e.event = r at hcarries ⊢
  obtain ⟨⟨s', log'⟩, aborted⟩ := r
  obtain ⟨hkeep, hripaddr, hnr⟩ := hcarries
  dsimp only at hripaddr hnr
  rw [hs] at hripaddr hnr
  dsimp only at hripaddr hnr
  dsimp only
  rw [hnr]
  obtain ⟨k, hk⟩ : ∃ k, k = newSlot w.connection (w.appstate e.uipConn).httpConnectionNr :=
    ⟨_, rfl⟩
  have hlt : k < w.connection.length := by
    rw [hk]
    exact newSlot_lt (h.slots.symm ▸ hpos) _
  have hkeeps' := (hkeep hkeeps).of_nr k
  obtain ⟨c, hc⟩ : ∃ c, w.connection[k]? = some c := ⟨_, List.getElem?_eq_getElem hlt⟩
  have honly : OnlyAt w.connection s'.ripaddr k := by
    intro j d _ hd
    rw [hripaddr]
    exact hne d (List.mem_of_getElem? hd)
  rw [← hk, if_pos hlt]
  refine ⟨_, rfl, ?_, ?_⟩
  · apply h.update rfl (h.slots ▸ hlt) e.uipConn hkeeps' _ honly
    rintro l a ⟨j, -, hj⟩
    exact ⟨j, hj⟩
  · rw [slotFree_iff h hne (hk ▸ hc)]
    constructor
    · intro hlive'
      obtain ⟨L, b⟩ := c
      cases L with
      | none => rfl
      | some l =>
          have hb : b ≠ (0, 0) := h.wellFormed.ne_zero l b (h.holdsOpen k l b hc).1
          have hother : s'.ripaddr ≠ b := hripaddr ▸ (hne _ (List.mem_of_getElem? hc)).symm
          exact absurd hlive' (not_live_set h.unique (hkeeps'.other l b ⟨k, hc⟩).1 hb hc hother)
    · intro hL
      apply live_set hlt
      -- The slot holds no Lua state, so the others hold all of them.
      have hbut : (fun l a => ∃ j : Nat, w.connection[j]? = some ⟨some l, a⟩) =
          HeldBut w.connection k := by
        funext l a
        apply propext
        constructor
        · rintro ⟨j, hj⟩
          refine ⟨j, ?_, hj⟩
          rintro rfl
          rw [Option.some.inj (hc.symm.trans hj)] at hL
          cases hL
        · rintro ⟨j, -, hj⟩
          exact ⟨j, hj⟩
      have hheld : Keeps (HeldBut w.connection k) s' log' := hbut ▸ hkeep hkeeps
      exact hheld

/-- **One call.**  No Lua state is lost exactly if a client does not get the slot of
another one with a Lua state. -/
theorem step_spec (h : Inv webMaxClient w) (hlive : Live w.connection w.log)
    (hpos : 0 < webMaxClient) (e : Appcall Conn) :
    ∃ w', step w e = some w' ∧ Inv webMaxClient w' ∧
      (Live w'.connection w'.log ↔ SlotFree w e) := by
  cases hfind : findClient w.connection e.ripaddr.1 with
  | none => exact step_new h hlive hpos hfind
  | some i =>
      obtain ⟨w', hstep, hinv, hlive'⟩ := step_present h hlive hfind
      refine ⟨w', hstep, hinv, iff_of_true hlive' ?_⟩
      obtain ⟨c, hc, ha⟩ := exists_of_findClient hfind
      intro hnone
      exact absurd ha (hnone c (List.mem_of_getElem? hc)).1

omit [DecidableEq Conn] in
theorem Inv.tableOk (h : Inv webMaxClient w) (hlive : Live w.connection w.log) : TableOk w := by
  refine ⟨h.unique, hlive, ?_⟩
  intro l a hused
  have hopened := h.wellFormed.used l a hused
  exact ⟨hopened, fun b hb => h.wellFormed.once l b a hb hopened⟩

omit [DecidableEq Conn] in
theorem inv_init (hpos : 0 < webMaxClient) :
    Inv webMaxClient (World.init webMaxClient : World Conn) where
  slots := List.length_replicate
  nr := fun _ => hpos
  wellFormed := ⟨nofun, nofun, nofun, nofun, nofun⟩
  unique := by
    intro i j c d hi _ _ hne
    have hc := List.eq_of_mem_replicate (List.mem_of_getElem? hi)
    exact absurd (congrArg Slot.ripaddr hc) hne
  holdsOpen := by
    intro i l a hi
    have hc := List.eq_of_mem_replicate (List.mem_of_getElem? hi)
    cases (Slot.mk.inj hc).1

/-- **The table of clients.**  After every call of every run there is one slot for an
address, no Lua state is lost and none is used for another address, if and only if no
client is given the slot of another one with a Lua state. -/
theorem clients_ok (hpos : 0 < webMaxClient) (es : List (Appcall Conn)) :
    (∀ n w, Transition.run step (World.init webMaxClient) (es.take n) = some w → TableOk w) ↔
      Transition.Conforming step SlotFree (World.init webMaxClient) es := by
  apply @Transition.forall_states_iff _ _ _ _
    fun w => Inv webMaxClient w ∧ Live w.connection w.log
  · intro w h
    exact h.1.tableOk h.2
  · intro w e h
    obtain ⟨w', hstep, hinv, hlive⟩ := step_spec h.1 h.2 hpos e
    refine ⟨w', hstep, fun hok => ⟨hinv, hok.2.1⟩, ?_⟩
    exact ⟨fun hok => hlive.mp hok.2.1, fun hfree => hinv.tableOk (hlive.mpr hfree)⟩
  · exact ⟨inv_init hpos, nofun⟩

/-- A client that runs a script. -/
def newClient (n : UInt16) (hn : (n, n) ≠ (0, 0)) : Appcall Unit :=
  ⟨(), ⟨(n, n), hn⟩, .other [.runElua true]⟩

/-- Four clients in a table of four slots. -/
def fourClients : List (Appcall Unit) :=
  [newClient 1 (by decide), newClient 2 (by decide), newClient 3 (by decide),
    newClient 4 (by decide)]

theorem clients_ok_four :
    Transition.Conforming step SlotFree (World.init 4) fourClients ∧
      ∀ n w, Transition.run step (World.init 4) (fourClients.take n) = some w → TableOk w :=
  ⟨by decide, (clients_ok (by decide) fourClients).mpr (by decide)⟩

/-- With a fifth client, the Lua state of the first one is lost. -/
theorem not_clients_ok :
    ¬∀ n w, Transition.run step (World.init 4)
      ((fourClients ++ [newClient 5 (by decide)]).take n) = some w → TableOk w := by
  intro hall
  obtain ⟨-, hlive, -⟩ := hall 5 _ rfl
  obtain ⟨i, hi⟩ := hlive 0 (1, 1) ⟨by decide, by decide⟩
  have hmem := List.mem_of_getElem? hi
  revert hmem
  decide

end

end Httpd.Clients
