import EluaWebServer.Lib.Transition
import EluaWebServer.Rfs.Transparent
import Mathlib.Data.List.Forall2

/-!
# The memory transport

The RFS server inside of the serial multiplexer gets its requests one byte at a
time.  `rfs_mem_read_request_packet` is a machine of three states over a buffer;
what `server_execute_request` leaves in the buffer is arbitrary.
-/

namespace Rfs.Memory

open Rpc Buffer

/-- `rfs_buffer`. -/
abbrev RfsBuffer := { b : List UInt8 // b.length = serverBufferSize }

inductive MemState where
  | MEM_STATE_READ_LENGTH
  | MEM_STATE_READ_REQUEST
  | MEM_STATE_REQUEST_DONE
  deriving DecidableEq

open MemState

structure Mem where
  rfsBuffer : RfsBuffer
  readLen : Nat
  expectedLen : Int
  readState : MemState
  responseFlag : Bool

def RfsBuffer.set (b : RfsBuffer) (p : Nat) (c : UInt8) : RfsBuffer :=
  ⟨b.1.set p c, List.length_set.trans b.2⟩

/-- `rfs_buffer[ p ] = c`. -/
def put (b : RfsBuffer) (p : Nat) (c : UInt8) : Option RfsBuffer :=
  if p < serverBufferSize then some (b.set p c) else none

def rfsMemStartRequest (s : Mem) : Mem :=
  { s with
    readState := MEM_STATE_READ_LENGTH
    readLen := 0
    expectedLen := 0
    responseFlag := false }

/-- One character, or -1.  What is written outside of the buffer has no result. -/
def rfsMemReadRequestPacket (s : Mem) : Option UInt8 → Option (Mem × Int)
  | none => some (rfsMemStartRequest s, 0)
  | some c =>
      match s.readState with
      | MEM_STATE_READ_LENGTH =>
          (put s.rfsBuffer s.readLen c).bind fun b =>
            if s.readLen + 1 = ELUARPC_START_OFFSET then
              (eluarpcGetPacketSize b.1).map fun (temp16, err) =>
                if err = ELUARPC_ERR then
                  ({ s with
                    rfsBuffer := b
                    readLen := 0
                    readState := MEM_STATE_REQUEST_DONE }, 0)
                else
                  ({ s with
                    rfsBuffer := b
                    readLen := 0
                    readState := MEM_STATE_READ_REQUEST
                    expectedLen := (temp16.toNat : Int) - ELUARPC_START_OFFSET }, 1)
            else some ({ s with rfsBuffer := b, readLen := s.readLen + 1 }, 1)
      | MEM_STATE_READ_REQUEST =>
          (put s.rfsBuffer (ELUARPC_START_OFFSET + s.readLen) c).map fun b =>
            if ((s.readLen + 1 : Nat) : Int) = s.expectedLen then
              ({ s with
                rfsBuffer := b
                readLen := s.readLen + 1
                readState := MEM_STATE_REQUEST_DONE
                responseFlag := true }, 1)
            else ({ s with rfsBuffer := b, readLen := s.readLen + 1 }, 1)
      | MEM_STATE_REQUEST_DONE => some (s, 1)

def rfsMemHasResponse (s : Mem) : Bool := s.responseFlag

section

variable (execute : RfsBuffer → RfsBuffer)

/-- What the multiplexer does with a byte for the RFS service: the request that
is executed, if there is one, and the machine afterwards. -/
def serve (s : Mem) (c : UInt8) : Option (Mem × Option RfsBuffer) :=
  (rfsMemReadRequestPacket s (some c)).map fun (s, _) =>
    if rfsMemHasResponse s then
      (rfsMemStartRequest { s with rfsBuffer := execute s.rfsBuffer }, some s.rfsBuffer)
    else (s, none)

/-- Bytes one by one, with what is executed after each. -/
def serveAll (s : Mem) : List UInt8 → Option (Mem × List (Option RfsBuffer))
  | [] => some (s, [])
  | c :: cs =>
      (serve execute s c).bind fun (s, out) =>
        (serveAll s cs).map fun (s, outs) => (s, out :: outs)

end

/-- After `mem_server_init`. -/
def Mem.init (b : RfsBuffer) : Mem := ⟨b, 0, 0, MEM_STATE_READ_LENGTH, false⟩

/-- A packet that fits the buffer. -/
def IsPacket (p : List UInt8) : Prop :=
  (∃ fs, p = packetBytes fs) ∧ p.length ≤ serverBufferSize

/-- A request packet of one of the operations that fits the buffer. -/
def IsRequest (p : List UInt8) : Prop :=
  (∃ o call, p = packetBytes (requestFields o call)) ∧ p.length ≤ serverBufferSize

/-- What is executed after each byte of a packet: nothing before the last one, and
then what the buffer holds. -/
def outputs (p : List UInt8) (b : RfsBuffer) : List (Option RfsBuffer) :=
  List.replicate (p.length - 1) none ++ [some b]

/-- There are bytes, a request at the end of them, after which it is executed. -/
def Live (execute : RfsBuffer → RfsBuffer) (s : Mem) : Prop :=
  ∃ bytes p s' outs b, IsRequest p ∧
    serveAll execute s (bytes ++ p) = some (s', outs ++ [some b]) ∧ b.1.take p.length = p

/-- A byte of the header is one of a packet with something after its header that
fits the buffer. -/
def ByteOk (s : Mem) (c : UInt8) : Prop :=
  s.readState = MEM_STATE_READ_LENGTH →
    (s.readLen = 0 → c = TYPE_PKT_SIZE) ∧ (s.readLen = 1 → c = TYPE_INT_16) ∧
      (s.readLen = 3 → ∀ lo, s.rfsBuffer.1[2]? = some lo →
        ELUARPC_START_OFFSET < lo.toNat + c.toNat * 256 ∧
          lo.toNat + c.toNat * 256 ≤ serverBufferSize)

/-! ## Single bytes -/

variable {f : RfsBuffer → RfsBuffer} {s s' : Mem} {c : UInt8}

/-- The bytes of a buffer that a header takes. -/
theorem buffer_eq (b : RfsBuffer) :
    ∃ b0 b1 b2 b3 rest, b.1 = b0 :: b1 :: b2 :: b3 :: rest := by
  obtain ⟨b, hb⟩ := b
  match b, hb with
  | b0 :: b1 :: b2 :: b3 :: rest, _ => exact ⟨b0, b1, b2, b3, rest, rfl⟩

theorem put_eq {p : Nat} (h : p < serverBufferSize) (b : RfsBuffer) (c : UInt8) :
    put b p c = some (b.set p c) :=
  if_pos h

/-- A byte of a header, before its last one. -/
theorem serve_length (b : RfsBuffer) {n : Nat} (e : Int) (hn : n < 3) (c : UInt8) :
    serve f ⟨b, n, e, MEM_STATE_READ_LENGTH, false⟩ c =
      some (⟨b.set n c, n + 1, e, MEM_STATE_READ_LENGTH, false⟩, none) := by
  have hput := put_eq (Nat.lt_trans hn (by decide : 3 < serverBufferSize)) b c
  have hmore : n + 1 ≠ ELUARPC_START_OFFSET := Nat.ne_of_lt (Nat.succ_lt_succ hn)
  unfold serve rfsMemReadRequestPacket
  dsimp only
  rw [hput, Option.bind_some, if_neg hmore]
  rfl

/-- The last byte of a header. -/
theorem serve_size {b : RfsBuffer} (e : Int) {b0 b1 lo b3 : UInt8} {rest : List UInt8}
    (hb : b.1 = b0 :: b1 :: lo :: b3 :: rest) (c : UInt8) :
    serve f ⟨b, 3, e, MEM_STATE_READ_LENGTH, false⟩ c =
      some (if b0 = TYPE_PKT_SIZE ∧ b1 = TYPE_INT_16 then
          ⟨b.set 3 c, 0, ((lo.toNat + c.toNat * 256 : Nat) : Int) - ELUARPC_START_OFFSET,
            MEM_STATE_READ_REQUEST, false⟩
        else ⟨b.set 3 c, 0, e, MEM_STATE_REQUEST_DONE, false⟩, none) := by
  have hset : (b.set 3 c).1 = b0 :: b1 :: lo :: c :: rest := by
    change b.1.set 3 c = _
    rw [hb]
    rfl
  have hput := put_eq (by decide : 3 < serverBufferSize) b c
  unfold serve rfsMemReadRequestPacket
  dsimp only
  rw [hput, Option.bind_some, if_pos (show 3 + 1 = ELUARPC_START_OFFSET from rfl), hset,
    getPacketSize_cons]
  by_cases hheader : b0 = TYPE_PKT_SIZE ∧ b1 = TYPE_INT_16
  · have hsize : lo.toNat + c.toNat * 256 = (Word.ofBytes16 lo c).toNat :=
      (Word.toNat_ofBytes16 lo c).symm
    rw [if_pos hheader, if_pos hheader, hsize]
    rfl
  · rw [if_neg hheader, if_neg hheader]
    rfl

/-- A byte after the header. -/
theorem serve_request (b : RfsBuffer) {n : Nat} (e : Int)
    (hin : ELUARPC_START_OFFSET + n < serverBufferSize) (c : UInt8) :
    serve f ⟨b, n, e, MEM_STATE_READ_REQUEST, false⟩ c =
      some (if ((n + 1 : Nat) : Int) = e then
          (Mem.init (f (b.set (ELUARPC_START_OFFSET + n) c)),
            some (b.set (ELUARPC_START_OFFSET + n) c))
        else
          (⟨b.set (ELUARPC_START_OFFSET + n) c, n + 1, e, MEM_STATE_READ_REQUEST, false⟩, none)) := by
  unfold serve rfsMemReadRequestPacket
  dsimp only
  rw [put_eq hin]
  by_cases hlast : ((n + 1 : Nat) : Int) = e
  · rw [if_pos hlast, Option.map_some, if_pos hlast]
    rfl
  · rw [if_neg hlast, Option.map_some, if_neg hlast]
    rfl

/-- Nothing is written outside of the buffer. -/
theorem serve_request_none (b : RfsBuffer) {n : Nat} (e : Int)
    (hout : ¬ELUARPC_START_OFFSET + n < serverBufferSize) (c : UInt8) :
    serve f ⟨b, n, e, MEM_STATE_READ_REQUEST, false⟩ c = none := by
  unfold serve rfsMemReadRequestPacket put
  dsimp only
  rw [if_neg hout]
  rfl

/-! ## Where a packet can still be completed -/

/-- The machine is in the header of a packet, or the rest of the packet fits. -/
def Good (s : Mem) : Prop :=
  s.responseFlag = false ∧
    match s.readState with
    | MEM_STATE_READ_LENGTH =>
        s.readLen < 4 ∧ (1 ≤ s.readLen → s.rfsBuffer.1[0]? = some TYPE_PKT_SIZE) ∧
          (2 ≤ s.readLen → s.rfsBuffer.1[1]? = some TYPE_INT_16)
    | MEM_STATE_READ_REQUEST =>
        s.readLen < s.expectedLen ∧ s.expectedLen + ELUARPC_START_OFFSET ≤ serverBufferSize
    | MEM_STATE_REQUEST_DONE => False

/-- What holds between any two bytes. -/
def Shape (s : Mem) : Prop :=
  s.responseFlag = false ∧ (s.readState = MEM_STATE_READ_LENGTH → s.readLen < 4)

theorem good_init (b : RfsBuffer) : Good (Mem.init b) :=
  ⟨rfl, (by decide : 0 < 4), nofun, nofun⟩

theorem Good.shape (h : Good s) : Shape s := by
  obtain ⟨b, n, e, st, fl⟩ := s
  refine ⟨h.1, ?_⟩
  rintro rfl
  exact h.2.1

/-- The first two bytes of a buffer after another one has been stored. -/
theorem set_of_ne (b : RfsBuffer) {n i : Nat} (h : n ≠ i) (c : UInt8) :
    (b.set n c).1[i]? = b.1[i]? :=
  List.getElem?_set_ne h

theorem set_self (b : RfsBuffer) {n : Nat} (h : n < serverBufferSize) (c : UInt8) :
    (b.set n c).1[n]? = some c := by
  change (b.1.set n c)[n]? = some c
  rw [List.getElem?_set_self (b.2.symm ▸ h)]

/-- **From a good state.**  The next state is good exactly if the byte can go
on with the packet. -/
theorem serve_good (h : Good s) (c : UInt8) :
    ∃ s' out, serve f s c = some (s', out) ∧ Shape s' ∧ (Good s' ↔ ByteOk s c) := by
  obtain ⟨b, n, e, st, fl⟩ := s
  obtain ⟨hflag, hstate⟩ := h
  cases hflag
  cases st with
  | MEM_STATE_REQUEST_DONE => exact hstate.elim
  | MEM_STATE_READ_REQUEST =>
      obtain ⟨hlt, hfits⟩ := hstate
      dsimp only at hlt hfits
      have hin : ELUARPC_START_OFFSET + n < serverBufferSize := by omega
      have hserve := serve_request (f := f) b e hin c
      have hok : ByteOk ⟨b, n, e, MEM_STATE_READ_REQUEST, false⟩ c := nofun
      by_cases hlast : ((n + 1 : Nat) : Int) = e
      · rw [if_pos hlast] at hserve
        exact ⟨_, _, hserve, (good_init _).shape, iff_of_true (good_init _) hok⟩
      · rw [if_neg hlast] at hserve
        have hmore : ((n + 1 : Nat) : Int) < e := by omega
        exact ⟨_, _, hserve, ⟨rfl, nofun⟩, iff_of_true ⟨rfl, hmore, hfits⟩ hok⟩
  | MEM_STATE_READ_LENGTH =>
      obtain ⟨hlen, h0, h1⟩ := hstate
      dsimp only at hlen h0 h1
      by_cases hlast : n = 3
      · subst hlast
        obtain ⟨b0, b1, lo, b3, rest, hb⟩ := buffer_eq b
        rw [hb] at h0 h1
        have hheader : b0 = TYPE_PKT_SIZE ∧ b1 = TYPE_INT_16 :=
          ⟨Option.some.inj (h0 (by decide)), Option.some.inj (h1 (by decide))⟩
        refine ⟨_, _, serve_size e hb c, ?_⟩
        rw [if_pos hheader]
        refine ⟨⟨rfl, nofun⟩, ?_⟩
        simp only [Good, ByteOk, hb, List.getElem?_cons_succ, List.getElem?_cons_zero,
          Option.some.injEq, forall_eq', true_and, forall_const]
        simp only [show ¬3 = 0 from by decide, show ¬3 = 1 from by decide, false_implies, true_and]
        omega
      · have hlt : n < 3 := by omega
        refine ⟨_, _, serve_length b e hlt c, ⟨rfl, fun _ => Nat.succ_lt_succ hlt⟩, ?_⟩
        simp only [Good, ByteOk, true_and, forall_const, hlast, false_implies, and_true]
        match n, hlt with
        | 0, _ =>
            rw [set_self b (by decide)]
            simp
        | 1, _ =>
            rw [set_self b (by decide), set_of_ne b (by decide), h0 (by decide)]
            simp
        | 2, _ =>
            rw [set_of_ne b (by decide), set_of_ne b (by decide), h0 (by decide), h1 (by decide)]
            simp

/-- **From a bad state.**  Nothing is ever executed. -/
theorem serve_bad {out : Option RfsBuffer} (hshape : Shape s) (h : ¬Good s)
    (hserve : serve f s c = some (s', out)) : out = none ∧ Shape s' ∧ ¬Good s' := by
  obtain ⟨b, n, e, st, fl⟩ := s
  obtain ⟨hflag, hlen⟩ := hshape
  cases hflag
  cases st with
  | MEM_STATE_REQUEST_DONE =>
      obtain ⟨rfl, rfl⟩ := Prod.mk.inj (Option.some.inj hserve)
      exact ⟨rfl, ⟨rfl, nofun⟩, h⟩
  | MEM_STATE_READ_REQUEST =>
      have hbad : ¬((n : Int) < e ∧ e + ELUARPC_START_OFFSET ≤ serverBufferSize) :=
        fun hgood => h ⟨rfl, hgood⟩
      by_cases hin : ELUARPC_START_OFFSET + n < serverBufferSize
      · have hlast : ¬((n + 1 : Nat) : Int) = e := by omega
        rw [serve_request b e hin, if_neg hlast] at hserve
        obtain ⟨rfl, rfl⟩ := Prod.mk.inj (Option.some.inj hserve)
        refine ⟨rfl, ⟨rfl, nofun⟩, ?_⟩
        rintro ⟨-, hlt, hfits⟩
        dsimp only at hlt hfits
        omega
      · rw [serve_request_none b e hin] at hserve
        cases hserve
  | MEM_STATE_READ_LENGTH =>
      have hlt4 := hlen rfl
      dsimp only at hlt4
      have hbad : ¬((1 ≤ n → b.1[0]? = some TYPE_PKT_SIZE) ∧ (2 ≤ n → b.1[1]? = some TYPE_INT_16)) :=
        fun hgood => h ⟨rfl, hlt4, hgood⟩
      by_cases hlast : n = 3
      · subst hlast
        obtain ⟨b0, b1, lo, b3, rest, hb⟩ := buffer_eq b
        have hheader : ¬(b0 = TYPE_PKT_SIZE ∧ b1 = TYPE_INT_16) := by
          rintro ⟨rfl, rfl⟩
          exact hbad ⟨fun _ => by rw [hb]; rfl, fun _ => by rw [hb]; rfl⟩
        rw [serve_size e hb, if_neg hheader] at hserve
        obtain ⟨rfl, rfl⟩ := Prod.mk.inj (Option.some.inj hserve)
        exact ⟨rfl, ⟨rfl, nofun⟩, fun hgood => hgood.2⟩
      · have hlt : n < 3 := by omega
        rw [serve_length b e hlt] at hserve
        obtain ⟨rfl, rfl⟩ := Prod.mk.inj (Option.some.inj hserve)
        refine ⟨rfl, ⟨rfl, fun _ => Nat.succ_lt_succ hlt⟩, ?_⟩
        rintro ⟨-, -, h0, h1⟩
        dsimp only at h0 h1
        refine hbad ⟨fun hn => ?_, fun hn => ?_⟩
        · rw [← set_of_ne b (by omega : n ≠ 0) c]
          exact h0 (by omega)
        · rw [← set_of_ne b (by omega : n ≠ 1) c]
          exact h1 (by omega)

/-! ## Runs of bytes -/

theorem serveAll_cons {out : Option RfsBuffer} {outs : List (Option RfsBuffer)} {cs : List UInt8}
    {s'' : Mem} (hfirst : serve f s c = some (s', out))
    (hrest : serveAll f s' cs = some (s'', outs)) :
    serveAll f s (c :: cs) = some (s'', out :: outs) := by
  rw [serveAll, hfirst, Option.bind_some]
  dsimp only
  rw [hrest]
  rfl

theorem exists_of_serveAll_cons {outs : List (Option RfsBuffer)} {cs : List UInt8} {s'' : Mem}
    (h : serveAll f s (c :: cs) = some (s'', outs)) :
    ∃ s' out outs', serve f s c = some (s', out) ∧
      serveAll f s' cs = some (s'', outs') ∧ outs = out :: outs' := by
  obtain ⟨⟨s₁, out⟩, hfirst, hmap⟩ := Option.bind_eq_some_iff.mp h
  obtain ⟨⟨s₂, outs₂⟩, hrest, heq⟩ := Option.map_eq_some_iff.mp hmap
  obtain ⟨rfl, rfl⟩ := Prod.mk.inj heq
  exact ⟨s₁, out, outs₂, hfirst, hrest, rfl⟩

theorem serveAll_append {xs ys : List UInt8} {outs outs' : List (Option RfsBuffer)} {s'' : Mem}
    (hxs : serveAll f s xs = some (s', outs))
    (hys : serveAll f s' ys = some (s'', outs')) :
    serveAll f s (xs ++ ys) = some (s'', outs ++ outs') := by
  induction xs generalizing s outs with
  | nil =>
      obtain ⟨rfl, rfl⟩ := Prod.mk.inj (Option.some.inj hxs)
      exact hys
  | cons x xs ih =>
      obtain ⟨s₁, out, outs₁, hfirst, hrest, rfl⟩ := exists_of_serveAll_cons hxs
      exact serveAll_cons hfirst (ih hrest)

/-- The header of a packet. -/
theorem serveAll_header (b : RfsBuffer) (e : Int) (lo hi : UInt8) :
    ∃ b' : RfsBuffer, b'.1.take 4 = [TYPE_PKT_SIZE, TYPE_INT_16, lo, hi] ∧
      serveAll f ⟨b, 0, e, MEM_STATE_READ_LENGTH, false⟩ [TYPE_PKT_SIZE, TYPE_INT_16, lo, hi] =
        some (⟨b', 0, ((lo.toNat + hi.toNat * 256 : Nat) : Int) - ELUARPC_START_OFFSET,
          MEM_STATE_READ_REQUEST, false⟩, [none, none, none, none]) := by
  obtain ⟨b0, b1, b2, b3, rest, hb⟩ := buffer_eq b
  have hthree : (((b.set 0 TYPE_PKT_SIZE).set 1 TYPE_INT_16).set 2 lo).1 =
      TYPE_PKT_SIZE :: TYPE_INT_16 :: lo :: b3 :: rest := by
    change ((b.1.set 0 _).set 1 _).set 2 _ = _
    rw [hb]
    rfl
  have hfour : ((((b.set 0 TYPE_PKT_SIZE).set 1 TYPE_INT_16).set 2 lo).set 3 hi).1 =
      TYPE_PKT_SIZE :: TYPE_INT_16 :: lo :: hi :: rest := by
    change (((b.set 0 TYPE_PKT_SIZE).set 1 TYPE_INT_16).set 2 lo).1.set 3 hi = _
    rw [hthree]
    rfl
  have hsize := serve_size (f := f) e hthree hi
  rw [if_pos ⟨rfl, rfl⟩] at hsize
  refine ⟨_, by rw [hfour]; rfl, ?_⟩
  apply serveAll_cons (serve_length b e (by decide) _)
  apply serveAll_cons (serve_length _ e (by decide) _)
  apply serveAll_cons (serve_length _ e (by decide) _)
  exact serveAll_cons hsize rfl

/-- The rest of a packet. -/
theorem serveAll_body {body : List UInt8} (hbody : body ≠ []) {b : RfsBuffer} {n : Nat} {e : Int}
    (hlen : ((n + body.length : Nat) : Int) = e)
    (hfits : e + ELUARPC_START_OFFSET ≤ serverBufferSize) :
    ∃ b' : RfsBuffer, b'.1 = splice b.1 (ELUARPC_START_OFFSET + n) body ∧
      serveAll f ⟨b, n, e, MEM_STATE_READ_REQUEST, false⟩ body =
        some (Mem.init (f b'), outputs body b') := by
  induction body generalizing b n with
  | nil => exact absurd rfl hbody
  | cons c cs ih =>
      have hin : ELUARPC_START_OFFSET + n < serverBufferSize := by
        rw [List.length_cons] at hlen
        omega
      have hsplice := @splice_cons _ b.1 (ELUARPC_START_OFFSET + n) c cs (b.2.symm ▸ hin)
      have hserve := serve_request (f := f) b e hin c
      cases cs with
      | nil =>
          rw [if_pos (show ((n + 1 : Nat) : Int) = e from hlen)] at hserve
          exact ⟨_, hsplice ▸ (splice_nil _ _).symm, serveAll_cons hserve rfl⟩
      | cons d ds =>
          have hmore : ¬((n + 1 : Nat) : Int) = e := by
            rw [List.length_cons, List.length_cons] at hlen
            omega
          rw [if_neg hmore] at hserve
          have hlen' : ((n + 1 + (d :: ds).length : Nat) : Int) = e := by
            rw [List.length_cons] at hlen
            omega
          obtain ⟨b', hb', hrest⟩ :=
            ih (List.cons_ne_nil d ds) (b := b.set (ELUARPC_START_OFFSET + n) c) hlen'
          exact ⟨b', hb'.trans hsplice, serveAll_cons hserve hrest⟩

/-- The bytes of a packet. -/
theorem IsPacket.eq_cons {p : List UInt8} (h : IsPacket p) :
    ∃ lo hi body, p = [TYPE_PKT_SIZE, TYPE_INT_16, lo, hi] ++ body ∧ body ≠ [] ∧
      lo.toNat + hi.toNat * 256 = p.length := by
  obtain ⟨⟨fs, rfl⟩, hfits⟩ := h
  rw [packetBytes_length] at hfits
  have hsize : (packetSize fs).toUInt16.toNat = packetSize fs :=
    Nat.mod_eq_of_lt (Nat.lt_of_le_of_lt hfits (by decide))
  refine ⟨_, _, packetTail fs, rfl, ?_, ?_⟩
  · intro hnil
    have := packetTail_length fs
    rw [hnil, List.length_nil] at this
    omega
  · have hbytes := congrArg UInt16.toNat (Word.ofBytes16_bytes16 (packetSize fs).toUInt16)
    rw [Word.toNat_ofBytes16, hsize] at hbytes
    rw [packetBytes_length]
    exact hbytes

/-- **A packet.**  It is executed after its last byte, and nothing before. -/
theorem serveAll_packet {p : List UInt8} (h : IsPacket p) (b : RfsBuffer) (e : Int) :
    ∃ b' : RfsBuffer, b'.1.take p.length = p ∧
      serveAll f ⟨b, 0, e, MEM_STATE_READ_LENGTH, false⟩ p =
        some (Mem.init (f b'), outputs p b') := by
  obtain ⟨lo, hi, body, rfl, hbody, hsize⟩ := h.eq_cons
  have hfits := h.2
  obtain ⟨b₁, htake, hheader⟩ := serveAll_header (f := f) b e lo hi
  rw [hsize] at hheader
  rw [List.length_append] at hfits hheader
  have hlen : ((0 + body.length : Nat) : Int) =
      (([TYPE_PKT_SIZE, TYPE_INT_16, lo, hi].length + body.length : Nat) : Int) -
        ELUARPC_START_OFFSET := by
    simp [ELUARPC_START_OFFSET]
  obtain ⟨b', hb', hrest⟩ := serveAll_body (f := f) (b := b₁) hbody hlen (by omega)
  refine ⟨b', ?_, ?_⟩
  · have hpacket : b'.1 = [TYPE_PKT_SIZE, TYPE_INT_16, lo, hi] ++ body ++ b₁.1.drop (4 + body.length) := by
      rw [hb', ← htake]
      rfl
    rw [hpacket, List.take_left]
  · have houts : outputs ([TYPE_PKT_SIZE, TYPE_INT_16, lo, hi] ++ body) b' =
        [none, none, none, none] ++ outputs body b' := by
      have hpos := List.length_pos_of_ne_nil hbody
      have hreplicate : [TYPE_PKT_SIZE, TYPE_INT_16, lo, hi].length + body.length - 1 =
          4 + (body.length - 1) := by
        rw [List.length_cons, List.length_cons, List.length_cons, List.length_cons, List.length_nil]
        omega
      rw [outputs, List.length_append, hreplicate, List.replicate_add, List.append_assoc]
      rfl
    rw [houts]
    exact serveAll_append hheader hrest

/-- A concatenation of packets. -/
theorem serveAll_packets {ps : List (List UInt8)} (h : ∀ p ∈ ps, IsPacket p) (b : RfsBuffer) :
    ∃ bs : List RfsBuffer, List.Forall₂ (fun p b => b.1.take p.length = p) ps bs ∧
      ∃ b', serveAll f (Mem.init b) ps.flatten =
        some (Mem.init b', (List.zipWith outputs ps bs).flatten) := by
  induction ps generalizing b with
  | nil => exact ⟨[], .nil, b, rfl⟩
  | cons p ps ih =>
      obtain ⟨b₁, htake, hpacket⟩ :=
        serveAll_packet (f := f) (h p List.mem_cons_self) b 0
      obtain ⟨bs, hbs, b', hrest⟩ := ih (fun q hq => h q (List.mem_cons_of_mem p hq)) (f b₁)
      exact ⟨b₁ :: bs, .cons htake hbs, b', serveAll_append hpacket hrest⟩

/-! ## Which states are absorbing -/

theorem IsRequest.isPacket {p : List UInt8} (h : IsRequest p) : IsPacket p := by
  obtain ⟨⟨o, call, hp⟩, hfits⟩ := h
  exact ⟨⟨_, hp⟩, hfits⟩

/-- A request to close a file. -/
theorem exists_isRequest : ∃ p, IsRequest p :=
  ⟨packetBytes (requestFields ⟨0, 0, 0, 0, 0, 0, 0, 0⟩ (.close 0)), ⟨_, _, rfl⟩, by decide⟩

theorem Live.of_serveAll {bytes : List UInt8} {outs : List (Option RfsBuffer)}
    (h : Live f s') (hserve : serveAll f s bytes = some (s', outs)) :
    Live f s := by
  obtain ⟨bytes', p, s'', outs', b, hp, hrun, htake⟩ := h
  refine ⟨bytes ++ bytes', p, s'', outs ++ outs', b, hp, ?_, htake⟩
  rw [List.append_assoc, List.append_assoc]
  exact serveAll_append hserve hrun

theorem Live.of_serve {out : Option RfsBuffer} (h : Live f s')
    (hserve : serve f s c = some (s', out)) : Live f s :=
  h.of_serveAll (serveAll_cons hserve (show serveAll f s' [] = some (s', []) from rfl))

theorem live_start (b : RfsBuffer) (e : Int) :
    Live f ⟨b, 0, e, MEM_STATE_READ_LENGTH, false⟩ := by
  obtain ⟨p, hp⟩ := exists_isRequest
  obtain ⟨b', htake, hserve⟩ := serveAll_packet (f := f) hp.isPacket b e
  exact ⟨[], p, _, _, b', hp, hserve, htake⟩

theorem live_request {b : RfsBuffer} {n : Nat} {e : Int} (hlt : (n : Int) < e)
    (hfits : e + ELUARPC_START_OFFSET ≤ serverBufferSize) :
    Live f ⟨b, n, e, MEM_STATE_READ_REQUEST, false⟩ := by
  have hpos : 0 < (e - n).toNat := by omega
  have hbody : List.replicate (e - n).toNat (0 : UInt8) ≠ [] := by
    rw [← List.length_pos_iff, List.length_replicate]
    exact hpos
  have hlen : ((n + (List.replicate (e - n).toNat (0 : UInt8)).length : Nat) : Int) = e := by
    rw [List.length_replicate]
    omega
  obtain ⟨b', -, hserve⟩ := serveAll_body (f := f) (b := b) hbody hlen hfits
  exact (live_start _ 0).of_serveAll hserve

/-- **A good state is not absorbing.**  The packet that has begun is completed,
and a request follows. -/
theorem Good.live (h : Good s) : Live f s := by
  obtain ⟨b, n, e, st, fl⟩ := s
  obtain ⟨hflag, hstate⟩ := h
  cases hflag
  cases st with
  | MEM_STATE_REQUEST_DONE => exact hstate.elim
  | MEM_STATE_READ_REQUEST => exact live_request hstate.1 hstate.2
  | MEM_STATE_READ_LENGTH =>
      obtain ⟨hlen, h0, h1⟩ := hstate
      dsimp only at hlen h0 h1
      have hthree : ∀ b : RfsBuffer, b.1[0]? = some TYPE_PKT_SIZE → b.1[1]? = some TYPE_INT_16 →
          Live f ⟨b, 3, e, MEM_STATE_READ_LENGTH, false⟩ := by
        intro b h0 h1
        obtain ⟨b0, b1, lo, b3, rest, hb⟩ := buffer_eq b
        rw [hb] at h0 h1
        have hserve := serve_size (f := f) e hb 1
        rw [if_pos ⟨Option.some.inj h0, Option.some.inj h1⟩] at hserve
        have hlo := lo.toNat_lt
        have hone : (1 : UInt8).toNat = 1 := rfl
        refine (live_request ?_ ?_).of_serve hserve
        all_goals
          rw [hone]
          simp only [ELUARPC_START_OFFSET, serverBufferSize, MAX_PACKET_SIZE,
            ELUARPC_WRITE_REQUEST_EXTRA]
          omega
      have htwo : ∀ b : RfsBuffer, b.1[0]? = some TYPE_PKT_SIZE → b.1[1]? = some TYPE_INT_16 →
          Live f ⟨b, 2, e, MEM_STATE_READ_LENGTH, false⟩ := by
        intro b h0 h1
        refine (hthree _ ?_ ?_).of_serve (serve_length b e (by decide) 0)
        · rw [set_of_ne b (by decide), h0]
        · rw [set_of_ne b (by decide), h1]
      have hcases : n = 0 ∨ n = 1 ∨ n = 2 ∨ n = 3 := by omega
      rcases hcases with rfl | rfl | rfl | rfl
      · exact live_start b e
      · refine (htwo _ ?_ ?_).of_serve (serve_length b e (by decide) TYPE_INT_16)
        · rw [set_of_ne b (by decide), h0 (by decide)]
        · rw [set_self b (by decide)]
      · exact htwo b (h0 (by decide)) (h1 (by decide))
      · exact hthree b (h0 (by decide)) (h1 (by decide))

/-- **A bad state is absorbing.** -/
theorem not_live (hshape : Shape s) (h : ¬Good s) : ¬Live f s := by
  have hnone : ∀ {bytes : List UInt8} {s s' : Mem} {outs : List (Option RfsBuffer)}, Shape s →
      ¬Good s → serveAll f s bytes = some (s', outs) → ∀ out ∈ outs, out = none := by
    intro bytes
    induction bytes with
    | nil =>
        intro s s' outs _ _ hserve
        obtain ⟨-, rfl⟩ := Prod.mk.inj (Option.some.inj hserve)
        exact nofun
    | cons c cs ih =>
        intro s s' outs hshape hbad hserve
        obtain ⟨s₁, out, outs₁, hfirst, hrest, rfl⟩ := exists_of_serveAll_cons hserve
        obtain ⟨rfl, hshape₁, hbad₁⟩ := serve_bad hshape hbad hfirst
        rw [List.forall_mem_cons]
        exact ⟨rfl, ih hshape₁ hbad₁ hrest⟩
  rintro ⟨bytes, p, s', outs, b, -, hserve, -⟩
  have hsome := hnone hshape h hserve (some b) (by simp)
  cases hsome

/-- A byte, without what is executed. -/
def step (execute : RfsBuffer → RfsBuffer) (s : Mem) (c : UInt8) : Option Mem :=
  (serve execute s c).map (·.1)

/-- **Framing of requests.**  Every packet of a concatenation of packets is
executed after its last byte.  A machine that is fed any bytes can always be
brought to execute a request if and only if every header is that of a packet
that fits the buffer and has something after the header. -/
theorem framing (execute : RfsBuffer → RfsBuffer) (b : RfsBuffer) :
    (∀ ps : List (List UInt8), (∀ p ∈ ps, IsPacket p) →
      ∃ bs : List RfsBuffer, List.Forall₂ (fun p b => b.1.take p.length = p) ps bs ∧
        ∃ b', serveAll execute (Mem.init b) ps.flatten =
          some (Mem.init b', (List.zipWith outputs ps bs).flatten)) ∧
      ∀ bytes : List UInt8,
        (∀ n s, Transition.run (step execute) (Mem.init b) (bytes.take n) = some s →
          Live execute s) ↔
        Transition.Conforming (step execute) ByteOk (Mem.init b) bytes := by
  refine ⟨fun ps hps => serveAll_packets hps b, fun bytes => ?_⟩
  apply @Transition.forall_states_iff _ _ _ _ Good
  · exact fun s hgood => hgood.live
  · intro s c hgood
    obtain ⟨s', out, hserve, hshape, hok⟩ := serve_good (f := execute) hgood c
    have hlive : Live execute s' → Good s' := by
      intro hlive
      by_contra hbad
      exact not_live hshape hbad hlive
    refine ⟨s', ?_, hlive, ?_⟩
    · rw [step, hserve]
      rfl
    · exact ⟨fun h => hok.mp (hlive h), fun h => (hok.mpr h).live⟩
  · exact good_init b

/-- `rfs_buffer` when the program starts. -/
def RfsBuffer.zeros : RfsBuffer := ⟨List.replicate serverBufferSize 0, List.length_replicate⟩

/-- A request to close a file, twice. -/
theorem framing_close :
    ∃ bs : List RfsBuffer, bs.length = 2 ∧ ∃ b',
      serveAll id (Mem.init .zeros) ([packetBytes [.op 4, .int32 0], packetBytes [.op 4, .int32 0]].flatten) =
        some (Mem.init b', (List.zipWith outputs
          [packetBytes [.op 4, .int32 0], packetBytes [.op 4, .int32 0]] bs).flatten) := by
  have hpacket : ∀ p ∈ [packetBytes [.op 4, .int32 0], packetBytes [.op 4, .int32 0]], IsPacket p := by
    intro p hp
    rw [List.mem_cons, List.mem_singleton, or_self_iff] at hp
    subst hp
    exact ⟨⟨_, rfl⟩, by decide⟩
  obtain ⟨bs, hbs, hserve⟩ := (framing id .zeros).1 _ hpacket
  exact ⟨bs, hbs.length_eq.symm, hserve⟩

/-- After four zeros no request is ever executed. -/
theorem not_framing :
    ∃ s, Transition.run (step id) (Mem.init .zeros) [0, 0, 0, 0] = some s ∧ ¬Live id s := by
  obtain ⟨s, hrun, hbad⟩ : ∃ s, Transition.run (step id) (Mem.init .zeros) [0, 0, 0, 0] = some s ∧
      s.readState = MEM_STATE_REQUEST_DONE ∧ s.responseFlag = false := by
    refine ⟨⟨(((RfsBuffer.zeros.set 0 0).set 1 0).set 2 0).set 3 0, 0, 0, MEM_STATE_REQUEST_DONE,
      false⟩, ?_, rfl, rfl⟩
    have hthree : (((RfsBuffer.zeros.set 0 0).set 1 0).set 2 0).1 =
        0 :: 0 :: 0 :: 0 :: List.replicate (serverBufferSize - 4) 0 := rfl
    have hlast := serve_size (f := id) 0 hthree 0
    rw [if_neg (by decide)] at hlast
    simp only [Transition.run, step, Mem.init, serve_length (f := id) _ _ (by decide : 0 < 3),
      serve_length (f := id) _ _ (by decide : 1 < 3),
      serve_length (f := id) _ _ (by decide : 2 < 3), Option.map_some, Option.bind_some,
      hlast]
  refine ⟨s, hrun, not_live ⟨hbad.2, ?_⟩ ?_⟩
  · rw [hbad.1]
    intro h
    cases h
  · rintro ⟨-, hgood⟩
    rw [hbad.1] at hgood
    exact hgood

end Rfs.Memory
