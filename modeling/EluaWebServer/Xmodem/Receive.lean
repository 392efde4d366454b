import EluaWebServer.Xmodem.Record
import EluaWebServer.Lib.Buffer

/-!
# The XMODEM receiver

`xmodem_receive` is a loop over what the peer does.  A turn of the loop is a
function of its own, which either goes on, returns, or accesses memory outside of
the buffer.
-/

namespace Xmodem

open Buffer

def XMODEM_INITIAL_BUFFER_SIZE : UInt32 := 1024
def XMODEM_INCREMENT_AMMOUNT : UInt32 := 512
def XMODEM_RETRY_LIMIT : Nat := 20

def XMODEM_ERROR_REMOTECANCEL : Int := -1
def XMODEM_ERROR_RETRYEXCEED : Int := -3
def XMODEM_ERROR_OUTOFMEM : Int := -4

/-- An address of a block. -/
abbrev Addr := Nat

/-- The live blocks. -/
abbrev Heap := Addr → Option (List UInt8)

/-- What each call of `realloc` does: it fails, or gives an address and what is in the
block beyond the bytes of the old one.  It fails for 2 ^ 31 bytes and more. -/
structure Allocator where
  result : Nat → UInt32 → Option (Addr × (Nat → UInt8))
  fails : ∀ k (n : UInt32), 2 ^ 31 ≤ n.toNat → result k n = none

/-- A block with the bytes of another one. -/
def resize (bytes : List UInt8) (n : Nat) (beyond : Nat → UInt8) : List UInt8 :=
  (List.range n).map fun i => (bytes[i]?).getD (beyond i)

/-- The variables of `xmodem_receive`, with the numbers of calls, what has been sent,
the packets accepted so far and where, and the values of `size` and `limit` for each
copy. -/
structure Receiver where
  starting : Bool
  packnum : UInt8
  retries : Nat
  limit : UInt32
  size : UInt32
  dest : Addr
  heap : Heap
  reallocs : Nat
  pos : Nat
  sent : List UInt8
  accepted : List (Nat × List UInt8)
  copies : List (UInt32 × UInt32)

/-- What comes of a turn. -/
inductive Turn where
  | again (s : Receiver)
  | returned (value : Int) (s : Receiver)
  /-- Memory outside of a live block is accessed. -/
  | fault

/-- A `u32` as a `long` of 32 bits. -/
def longOfU32 (x : UInt32) : Int := x.toBitVec.toInt

/-- The end of `xmodem_receive` after bytes have been dropped. -/
def finish (peer : Peer) (n : Nat) (s : Receiver) (sent : List UInt8) (value : Int) :
    Option Turn :=
  (xmodemFlush peer n s.pos).map fun pos =>
    .returned value { s with pos := pos, sent := s.sent ++ sent }

/-- `realloc( *dest, limit )`, when there is no room for another packet. -/
def grow (a : Allocator) (s : Receiver) (outOfMem : Receiver → Option Turn)
    (next : Receiver → Option Turn) : Option Turn :=
  if s.size + PXM_ACKET_SIZE.toUInt32 > s.limit then
    match s.heap s.dest with
    | none => some .fault
    | some bytes =>
        let limit := s.limit + XMODEM_INCREMENT_AMMOUNT
        match a.result s.reallocs limit with
        | none => outOfMem { s with limit := limit, reallocs := s.reallocs + 1 }
        | some (p, beyond) =>
            next { s with
              limit := limit
              dest := p
              heap := Function.update (Function.update s.heap s.dest none) p
                (some (resize bytes limit.toNat beyond))
              reallocs := s.reallocs + 1 }
  else next s

/-- The packet is acknowledged and copied. -/
def consume (s : Receiver) (buf : List UInt8) : Turn :=
  match (s.heap s.dest).bind fun bytes => storeAll bytes s.size.toNat (payload buf) with
  | none => .fault
  | some bytes =>
      .again { s with
        heap := Function.update s.heap s.dest (some bytes)
        sent := s.sent ++ [XM_ACK]
        copies := s.copies ++ [(s.size, s.limit)]
        size := s.size + PXM_ACKET_SIZE.toUInt32 }

/-- What is done with a packet that has been accepted. -/
def gotPacket (peer : Peer) (a : Allocator) (n : Nat) (s : Receiver) (buf : List UInt8) :
    Option Turn :=
  (xmodemFlush peer n s.pos).bind fun pos =>
    grow a { s with pos := pos, retries := XMODEM_RETRY_LIMIT, packnum := s.packnum + 1 }
      (fun s => finish peer n s [XM_CAN, XM_CAN, XM_CAN] XMODEM_ERROR_OUTOFMEM)
      (fun s => some (consume s buf))

/-- One turn of the loop; dropping bytes takes at most `n` calls. -/
def turn (peer : Peer) (a : Allocator) (n : Nat) (s : Receiver) : Option Turn :=
  if s.retries = 0 then
    finish peer n s [XM_CAN, XM_CAN, XM_CAN] XMODEM_ERROR_RETRYEXCEED
  else
    let soh := s.pos
    let s := { s with
      retries := s.retries - 1
      sent := if s.starting then s.sent ++ [0x43] else s.sent
      pos := s.pos + 1 }
    match peer soh with
    | none => some (.again s)
    | some ch =>
        if ch ≠ XM_SOH ∧ ch ≠ XM_EOT ∧ ch ≠ XM_CAN then some (.again s)
        else if ch = XM_EOT then
          finish peer n { s with sent := s.sent ++ [XM_ACK] } [] (longOfU32 s.size)
        else if ch = XM_CAN then
          finish peer n { s with sent := s.sent ++ [XM_ACK] } [] XMODEM_ERROR_REMOTECANCEL
        else
          let s := { s with starting := false }
          match xmodemGetRecord peer s.packnum s.pos with
          | (none, pos) => some (.again { s with pos := pos, sent := s.sent ++ [XM_NAK] })
          | (some buf, pos) =>
              gotPacket peer a n { s with pos := pos, accepted := s.accepted ++ [(soh, buf)] } buf

/-- The loop, for at most `n` turns. -/
def xmodemReceive (peer : Peer) (a : Allocator) : Nat → Receiver → Option Turn
  | 0, _ => none
  | n + 1, s =>
      (turn peer a n s).bind fun t =>
        match t with
        | .again s => xmodemReceive peer a n s
        | t => some t

/-- The variables before the loop. -/
def Receiver.start (dest : Addr) (heap : Heap) : Receiver where
  starting := true
  packnum := 1
  retries := XMODEM_RETRY_LIMIT
  limit := XMODEM_INITIAL_BUFFER_SIZE
  size := 0
  dest := dest
  heap := heap
  reallocs := 0
  pos := 0
  sent := []
  accepted := []
  copies := []

/-! ## What is received -/

/-- The bytes of the packets. -/
def payloads (accepted : List (Nat × List UInt8)) : List UInt8 :=
  accepted.flatMap fun p => payload p.2

/-- The packets that are accepted: each has been sent by the peer behind `XM_SOH`, is
numbered in order, has a valid CRC and comes after the one before it. -/
structure AcceptedOk (peer : Peer) (accepted : List (Nat × List UInt8)) : Prop where
  sent : ∀ p ∈ accepted, peer p.1 = some XM_SOH ∧ SendsAt peer (p.1 + 1) p.2
  record : ∀ i p, accepted[i]? = some p → IsRecord (UInt8.ofNat (i + 1)) p.2
  order : accepted.Pairwise fun p q => p.1 + (PXM_ACKET_SIZE + 5) ≤ q.1

/-- What holds when `xmodem_receive` returns. -/
structure Received (peer : Peer) (value : Int) (s : Receiver) : Prop where
  live : ∃ bytes, s.heap s.dest = some bytes ∧
    (0 ≤ value → value = (payloads s.accepted).length ∧
      bytes.take value.toNat = payloads s.accepted)
  accepted : AcceptedOk peer s.accepted
  copies : ∀ c ∈ s.copies, c.1.toNat + PXM_ACKET_SIZE ≤ c.2.toNat

/-! ## The buffer -/

/-- The buffer is live, has `limit` bytes and begins with the `size` bytes received. -/
structure Holds (s : Receiver) (bytes : List UInt8) : Prop where
  block : ∃ block, s.heap s.dest = some block ∧ block.length = s.limit.toNat ∧
    block.take s.size.toNat = bytes
  size : s.size.toNat = bytes.length
  size_dvd : PXM_ACKET_SIZE ∣ s.size.toNat
  limit_dvd : PXM_ACKET_SIZE ∣ s.limit.toNat
  size_le : s.size.toNat ≤ s.limit.toNat
  limit_lt : s.limit.toNat < 2 ^ 31

variable {peer : Peer} {a : Allocator} {s s' : Receiver} {bytes buf : List UInt8} {n : Nat}

theorem length_resize (bytes : List UInt8) (n : Nat) (beyond : Nat → UInt8) :
    (resize bytes n beyond).length = n := by
  rw [resize, List.length_map, List.length_range]

theorem take_resize {k n : Nat} (beyond : Nat → UInt8) (hk : k ≤ bytes.length)
    (hn : bytes.length ≤ n) : (resize bytes n beyond).take k = bytes.take k := by
  apply List.ext_getElem?
  intro i
  by_cases hi : i < k
  · have hlt : i < n := by omega
    rw [List.getElem?_take_of_lt hi, List.getElem?_take_of_lt hi, resize, List.getElem?_map,
      List.getElem?_range hlt, Option.map_some, List.getElem?_eq_getElem (by omega)]
    rfl
  · rw [List.getElem?_take_eq_none (Nat.le_of_not_lt hi),
      List.getElem?_take_eq_none (Nat.le_of_not_lt hi)]

theorem Holds.toNat_size_add (h : Holds s bytes) :
    (s.size + PXM_ACKET_SIZE.toUInt32).toNat = s.size.toNat + PXM_ACKET_SIZE := by
  have hpacket : PXM_ACKET_SIZE.toUInt32.toNat = PXM_ACKET_SIZE := rfl
  have hle := h.size_le
  have hlt := h.limit_lt
  rw [UInt32.toNat_add, hpacket]
  unfold PXM_ACKET_SIZE
  omega

theorem Holds.toNat_limit_add (h : Holds s bytes) :
    (s.limit + XMODEM_INCREMENT_AMMOUNT).toNat = s.limit.toNat + 512 := by
  have hincrement : XMODEM_INCREMENT_AMMOUNT.toNat = 512 := rfl
  have hlt := h.limit_lt
  rw [UInt32.toNat_add, hincrement]
  omega

theorem Holds.longOfU32 (h : Holds s bytes) : longOfU32 s.size = s.size.toNat := by
  have hle := h.size_le
  have hlt := h.limit_lt
  have hsize : 2 * s.size.toBitVec.toNat < 2 ^ 32 := by
    change 2 * s.size.toNat < 2 ^ 32
    omega
  rw [Xmodem.longOfU32, BitVec.toInt_eq_toNat_cond, if_pos hsize]
  rfl

/-- There is no room for a packet only in a full buffer. -/
theorem Holds.full_iff (h : Holds s bytes) :
    s.size + PXM_ACKET_SIZE.toUInt32 > s.limit ↔ s.size.toNat = s.limit.toNat := by
  obtain ⟨i, hi⟩ := h.size_dvd
  obtain ⟨j, hj⟩ := h.limit_dvd
  have hle := h.size_le
  rw [gt_iff_lt, UInt32.lt_iff_toNat_lt, h.toNat_size_add]
  unfold PXM_ACKET_SIZE at hi hj ⊢
  omega

/-- **Growing the buffer.**  It has room for a packet afterwards, or there is no
memory and it is as it was. -/
theorem grow_cases (h : Holds s bytes) (outOfMem next : Receiver → Option Turn) :
    (∃ limit reallocs, grow a s outOfMem next =
      outOfMem { s with limit := limit, reallocs := reallocs }) ∨
    ∃ dest heap limit reallocs, grow a s outOfMem next =
        next { s with dest := dest, heap := heap, limit := limit, reallocs := reallocs } ∧
      Holds { s with dest := dest, heap := heap, limit := limit, reallocs := reallocs } bytes ∧
      s.size.toNat + PXM_ACKET_SIZE ≤ limit.toNat := by
  obtain ⟨block, hblock, hlen, htake⟩ := h.block
  have hle := h.size_le
  unfold grow
  by_cases hfull : s.size + PXM_ACKET_SIZE.toUInt32 > s.limit
  · have heq := h.full_iff.mp hfull
    have hlimit := h.toNat_limit_add
    rw [if_pos hfull, hblock]
    dsimp only
    cases hresult : a.result s.reallocs (s.limit + XMODEM_INCREMENT_AMMOUNT) with
    | none => exact Or.inl ⟨_, _, rfl⟩
    | some r =>
        obtain ⟨p, beyond⟩ := r
        have hk : s.size.toNat ≤ block.length := hlen ▸ hle
        have hn : block.length ≤ (s.limit + XMODEM_INCREMENT_AMMOUNT).toNat := by omega
        refine Or.inr ⟨_, _, _, _, rfl, ?_, ?_⟩
        · constructor
          · refine ⟨_, Function.update_self _ _ _, length_resize _ _ _, ?_⟩
            exact (take_resize beyond hk hn).trans htake
          · exact h.size
          · exact h.size_dvd
          · rw [hlimit]
            exact Nat.dvd_add h.limit_dvd (by decide)
          · dsimp only
            omega
          · dsimp only
            rw [hlimit]
            apply Nat.lt_of_not_le
            intro hge
            -- An allocation of this size fails.
            rw [← hlimit] at hge
            rw [a.fails s.reallocs _ hge] at hresult
            cases hresult
        · rw [hlimit, heq]
          unfold PXM_ACKET_SIZE
          omega
  · rw [if_neg hfull]
    obtain ⟨i, hi⟩ := h.size_dvd
    obtain ⟨j, hj⟩ := h.limit_dvd
    have hne : s.size.toNat ≠ s.limit.toNat := fun heq => hfull (h.full_iff.mpr heq)
    refine Or.inr ⟨s.dest, s.heap, s.limit, s.reallocs, rfl, h, ?_⟩
    unfold PXM_ACKET_SIZE at hi hj ⊢
    omega

/-- **Copying a packet.** -/
theorem consume_eq (h : Holds s bytes) (hroom : s.size.toNat + PXM_ACKET_SIZE ≤ s.limit.toNat)
    (hbuf : (payload buf).length = PXM_ACKET_SIZE) :
    ∃ heap, consume s buf = .again { s with
        heap := heap
        sent := s.sent ++ [XM_ACK]
        copies := s.copies ++ [(s.size, s.limit)]
        size := s.size + PXM_ACKET_SIZE.toUInt32 } ∧
      Holds { s with heap := heap, size := s.size + PXM_ACKET_SIZE.toUInt32 }
        (bytes ++ payload buf) := by
  obtain ⟨block, hblock, hlen, htake⟩ := h.block
  have hstore : storeAll block s.size.toNat (payload buf) =
      some (splice block s.size.toNat (payload buf)) := by
    apply storeAll_eq_splice
    omega
  have hsize := h.toNat_size_add
  refine ⟨_, by rw [consume, hblock, Option.bind_some, hstore], ?_⟩
  constructor
  · refine ⟨_, Function.update_self _ _ _, ?_, ?_⟩
    · rw [splice_length (by omega)]
      exact hlen
    · rw [hsize, ← htake, splice]
      have hlength : s.size.toNat + PXM_ACKET_SIZE =
          (block.take s.size.toNat ++ payload buf).length := by
        rw [List.length_append, List.length_take, hbuf]
        omega
      rw [hlength, List.take_left]
  · dsimp only
    rw [hsize, List.length_append, hbuf, h.size]
  · dsimp only
    rw [hsize]
    exact Nat.dvd_add h.size_dvd (Nat.dvd_refl _)
  · exact h.limit_dvd
  · dsimp only
    rw [hsize]
    exact hroom
  · exact h.limit_lt

/-! ## Turns -/

theorem length_payload {blocknum : UInt8} (h : IsRecord blocknum buf) :
    (payload buf).length = PXM_ACKET_SIZE := by
  rw [payload, List.length_take, List.length_drop, h.length]
  rfl

theorem payloads_append (accepted : List (Nat × List UInt8)) (p : Nat × List UInt8) :
    payloads (accepted ++ [p]) = payloads accepted ++ payload p.2 := by
  rw [payloads, List.flatMap_append, List.flatMap_singleton]
  rfl

/-- What holds at the beginning of a turn. -/
structure Inv (peer : Peer) (s : Receiver) : Prop where
  holds : Holds s (payloads s.accepted)
  packnum : s.packnum = UInt8.ofNat (s.accepted.length + 1)
  accepted : AcceptedOk peer s.accepted
  before : ∀ p ∈ s.accepted, p.1 + (PXM_ACKET_SIZE + 5) ≤ s.pos
  copies : ∀ c ∈ s.copies, c.1.toNat + PXM_ACKET_SIZE ≤ c.2.toNat

/-- What a turn does without a packet. -/
theorem Inv.next (h : Inv peer s) (starting : Bool) (retries : Nat) {pos : Nat}
    (sent : List UInt8) (hpos : s.pos ≤ pos) :
    Inv peer { s with starting := starting, retries := retries, pos := pos, sent := sent } where
  holds := ⟨h.holds.block, h.holds.size, h.holds.size_dvd, h.holds.limit_dvd, h.holds.size_le,
    h.holds.limit_lt⟩
  packnum := h.packnum
  accepted := h.accepted
  before := fun p hp => Nat.le_trans (h.before p hp) hpos
  copies := h.copies

/-- What is to be proved of a turn. -/
def TurnOk (peer : Peer) : Turn → Prop
  | .again s => Inv peer s
  | .returned value s => Received peer value s
  | .fault => False

/-- A record behind the ones before. -/
theorem AcceptedOk.append {accepted : List (Nat × List UInt8)} {soh : Nat}
    (h : AcceptedOk peer accepted)
    (hbefore : ∀ p ∈ accepted, p.1 + (PXM_ACKET_SIZE + 5) ≤ soh) (hsoh : peer soh = some XM_SOH)
    (hsends : SendsAt peer (soh + 1) buf)
    (hrecord : IsRecord (UInt8.ofNat (accepted.length + 1)) buf) :
    AcceptedOk peer (accepted ++ [(soh, buf)]) where
  sent := by
    intro p hp
    rcases List.mem_append.mp hp with hp | hp
    · exact h.sent p hp
    · obtain rfl := List.mem_singleton.mp hp
      exact ⟨hsoh, hsends⟩
  record := by
    intro i p hi
    by_cases hlt : i < accepted.length
    · rw [List.getElem?_append_left hlt] at hi
      exact h.record i p hi
    · rw [List.getElem?_append_right (Nat.le_of_not_lt hlt), List.getElem?_singleton] at hi
      split at hi
      next heq =>
        obtain rfl := Option.some.inj hi
        have hi : i = accepted.length := by omega
        rw [hi]
        exact hrecord
      next => cases hi
  order := by
    rw [List.pairwise_append]
    refine ⟨h.order, List.pairwise_singleton _ _, ?_⟩
    intro p hp q hq
    obtain rfl := List.mem_singleton.mp hq
    exact hbefore p hp

theorem ofNat_add_one (n : Nat) : UInt8.ofNat n + 1 = UInt8.ofNat (n + 1) := by
  rw [UInt8.ofNat_add]
  rfl

/-- A return with an error. -/
theorem finish_error {value : Int} {sent : List UInt8} {t : Turn}
    (hlive : ∃ block, s.heap s.dest = some block) (haccepted : AcceptedOk peer s.accepted)
    (hcopies : ∀ c ∈ s.copies, c.1.toNat + PXM_ACKET_SIZE ≤ c.2.toNat) (hvalue : value < 0)
    (h : finish peer n s sent value = some t) : TurnOk peer t := by
  obtain ⟨pos, -, rfl⟩ := Option.map_eq_some_iff.mp h
  obtain ⟨block, hblock⟩ := hlive
  exact ⟨⟨block, hblock, fun hle => absurd hle (Int.not_le.mpr hvalue)⟩, haccepted, hcopies⟩

/-- **A packet that is accepted.** -/
theorem gotPacket_ok {soh : Nat} {accepted : List (Nat × List UInt8)} {t : Turn}
    (h : gotPacket peer a n s buf = some t) (holds : Holds s (payloads accepted)) (hs : s.accepted = accepted ++ [(soh, buf)])
    (hpacknum : s.packnum = UInt8.ofNat (accepted.length + 1))
    (haccepted : AcceptedOk peer s.accepted)
    (hbefore : ∀ p ∈ s.accepted, p.1 + (PXM_ACKET_SIZE + 5) ≤ s.pos)
    (hcopies : ∀ c ∈ s.copies, c.1.toNat + PXM_ACKET_SIZE ≤ c.2.toNat)
    (hbuf : (payload buf).length = PXM_ACKET_SIZE) : TurnOk peer t := by
  obtain ⟨pos, hflush, hgrow⟩ := Option.bind_eq_some_iff.mp h
  have hpos := lt_of_xmodemFlush hflush
  have hbefore' : ∀ p ∈ s.accepted, p.1 + (PXM_ACKET_SIZE + 5) ≤ pos := fun p hp =>
    Nat.le_trans (hbefore p hp) (Nat.le_of_lt hpos)
  obtain ⟨block, hblock, -⟩ := holds.block
  have holds' : Holds { s with
      pos := pos, retries := XMODEM_RETRY_LIMIT, packnum := s.packnum + 1 } (payloads accepted) :=
    ⟨holds.block, holds.size, holds.size_dvd, holds.limit_dvd, holds.size_le, holds.limit_lt⟩
  rcases grow_cases holds' _ _ with ⟨limit, reallocs, heq⟩ | ⟨dest, heap, limit, reallocs, heq, hroom⟩
  · rw [heq] at hgrow
    refine finish_error ?_ ?_ ?_ (by decide) hgrow
    · exact ⟨block, hblock⟩
    · exact haccepted
    · exact hcopies
  · rw [heq] at hgrow
    obtain ⟨holds'', hroom⟩ := hroom
    obtain ⟨heap', hconsume, hcopied⟩ := consume_eq holds'' hroom hbuf
    obtain rfl := Option.some.inj hgrow
    rw [hconsume]
    constructor
    · dsimp only
      rw [hs, payloads_append]
      exact ⟨hcopied.block, hcopied.size, hcopied.size_dvd, hcopied.limit_dvd, hcopied.size_le,
        hcopied.limit_lt⟩
    · dsimp only
      rw [hpacknum, hs, List.length_append, List.length_singleton, ofNat_add_one]
    · exact haccepted
    · exact hbefore'
    · intro c hc
      rcases List.mem_append.mp hc with hc | hc
      · exact hcopies c hc
      · obtain rfl := List.mem_singleton.mp hc
        exact hroom

/-- **A turn** keeps the invariant, or returns what has been received. -/
theorem turn_ok {t : Turn} (hinv : Inv peer s) (h : turn peer a n s = some t) :
    TurnOk peer t := by
  obtain ⟨block, hblock, hlen, htake⟩ := hinv.holds.block
  unfold turn at h
  by_cases hretries : s.retries = 0
  · rw [if_pos hretries] at h
    exact finish_error ⟨block, hblock⟩ hinv.accepted hinv.copies
      (by decide : XMODEM_ERROR_RETRYEXCEED < 0) h
  · rw [if_neg hretries] at h
    dsimp only at h
    cases hpeer : peer s.pos with
    | none =>
        rw [hpeer] at h
        obtain rfl := Option.some.inj h
        exact hinv.next _ _ _ (Nat.le_succ _)
    | some ch =>
        rw [hpeer] at h
        dsimp only at h
        by_cases hother : ch ≠ XM_SOH ∧ ch ≠ XM_EOT ∧ ch ≠ XM_CAN
        · rw [if_pos hother] at h
          obtain rfl := Option.some.inj h
          exact hinv.next _ _ _ (Nat.le_succ _)
        · rw [if_neg hother] at h
          by_cases heot : ch = XM_EOT
          · rw [if_pos heot] at h
            obtain ⟨pos, -, rfl⟩ := Option.map_eq_some_iff.mp h
            refine ⟨⟨block, hblock, fun _ => ?_⟩, hinv.accepted, hinv.copies⟩
            rw [hinv.holds.longOfU32]
            exact ⟨congrArg _ hinv.holds.size, htake⟩
          · rw [if_neg heot] at h
            by_cases hcan : ch = XM_CAN
            · rw [if_pos hcan] at h
              refine finish_error ?_ ?_ ?_ (by decide) h
              · exact ⟨block, hblock⟩
              · exact hinv.accepted
              · exact hinv.copies
            · rw [if_neg hcan] at h
              have hsoh : ch = XM_SOH := by
                by_contra hsoh
                exact hother ⟨hsoh, heot, hcan⟩
              subst hsoh
              have hle := le_xmodemGetRecord peer s.packnum (s.pos + 1)
              generalize hr : xmodemGetRecord peer s.packnum (s.pos + 1) = r at h hle
              obtain ⟨record, pos⟩ := r
              cases record with
              | none =>
                  obtain rfl := Option.some.inj h
                  exact hinv.next _ _ _ (Nat.le_of_succ_le hle)
              | some buf =>
                  obtain ⟨hrecord, hsends, hpos⟩ := xmodemGetRecord_some hr
                  have haccepted := hinv.accepted.append hinv.before hpeer hsends
                    (hinv.packnum ▸ hrecord)
                  refine gotPacket_ok h ?_ rfl hinv.packnum haccepted ?_ hinv.copies
                    (length_payload hrecord)
                  · exact ⟨hinv.holds.block, hinv.holds.size, hinv.holds.size_dvd,
                      hinv.holds.limit_dvd, hinv.holds.size_le, hinv.holds.limit_lt⟩
                  · intro p hp
                    rw [hpos]
                    rcases List.mem_append.mp hp with hp | hp
                    · have hbefore := hinv.before p hp
                      dsimp only
                      omega
                    · obtain rfl := List.mem_singleton.mp hp
                      dsimp only
                      omega

/-- **A run** that ends returns what has been received. -/
theorem xmodemReceive_ok {t : Turn} (hinv : Inv peer s)
    (h : xmodemReceive peer a n s = some t) :
    ∃ value s', t = .returned value s' ∧ Received peer value s' := by
  induction n generalizing s with
  | zero => cases h
  | succ n ih =>
      obtain ⟨t', hturn, hrest⟩ := Option.bind_eq_some_iff.mp h
      have hok := turn_ok hinv hturn
      cases t' with
      | again s' => exact ih hok hrest
      | returned value s' =>
          obtain rfl := Option.some.inj hrest
          exact ⟨value, s', rfl, hok⟩
      | fault => exact hok.elim

/-! ## The end of a run -/

/-- What every turn makes smaller, after which the peer sends nothing. -/
def budget (last : Nat) (s : Receiver) : Nat := (XMODEM_RETRY_LIMIT + 1) * (last - s.pos) + s.retries

/-- A turn that goes on has made it smaller. -/
def Decreases (last : Nat) (s : Receiver) (t : Turn) : Prop :=
  ∀ s', t = .again s' → budget last s' < budget last s

theorem exists_finish {last : Nat} (hlast : ∀ k, last ≤ k → peer k = none)
    (hn : last - s.pos < n) (sent : List UInt8) (value : Int) (s₀ : Receiver) :
    ∃ t, finish peer n s sent value = some t ∧ Decreases last s₀ t := by
  obtain ⟨pos, hpos⟩ := exists_xmodemFlush hlast hn
  refine ⟨.returned value { s with pos := pos, sent := s.sent ++ sent }, ?_, nofun⟩
  rw [finish, hpos, Option.map_some]

/-- Growing does not change what the end of the run depends on. -/
theorem exists_grow {outOfMem next : Receiver → Option Turn} {Q : Turn → Prop} (hfault : Q .fault)
    (houtOfMem : ∀ limit reallocs,
      ∃ t, outOfMem { s with limit := limit, reallocs := reallocs } = some t ∧ Q t)
    (hnext : ∀ dest heap limit reallocs,
      ∃ t, next { s with dest := dest, heap := heap, limit := limit, reallocs := reallocs } =
        some t ∧ Q t) :
    ∃ t, grow a s outOfMem next = some t ∧ Q t := by
  unfold grow
  split
  · split
    · exact ⟨_, rfl, hfault⟩
    · dsimp only
      split
      · exact houtOfMem _ _
      · exact hnext _ _ _ _
  · exact hnext s.dest s.heap s.limit s.reallocs

theorem exists_turn {last : Nat} (hlast : ∀ k, last ≤ k → peer k = none)
    (hn : budget last s < n) : ∃ t, turn peer a n s = some t ∧ Decreases last s t := by
  have hflush : ∀ pos, s.pos ≤ pos → last - pos < n := by
    intro pos hpos
    unfold budget XMODEM_RETRY_LIMIT at hn
    omega
  unfold turn
  by_cases hretries : s.retries = 0
  · rw [if_pos hretries]
    exact exists_finish hlast (hflush _ (Nat.le_refl _)) _ _ s
  · rw [if_neg hretries]
    dsimp only
    have hagain : ∀ s' : Receiver, s'.retries = s.retries - 1 → s.pos ≤ s'.pos →
        Decreases last s (.again s') := by
      rintro s' hr hp _ ⟨⟩
      unfold budget XMODEM_RETRY_LIMIT
      omega
    cases hpeer : peer s.pos with
    | none => exact ⟨_, rfl, hagain _ rfl (Nat.le_succ _)⟩
    | some ch =>
        have hlt : s.pos < last := by
          apply Nat.lt_of_not_le
          intro hle
          rw [hlast _ hle] at hpeer
          cases hpeer
        dsimp only
        by_cases hother : ch ≠ XM_SOH ∧ ch ≠ XM_EOT ∧ ch ≠ XM_CAN
        · rw [if_pos hother]
          exact ⟨_, rfl, hagain _ rfl (Nat.le_succ _)⟩
        · rw [if_neg hother]
          by_cases heot : ch = XM_EOT
          · rw [if_pos heot]
            exact exists_finish hlast (hflush _ (Nat.le_succ _)) _ _ s
          · rw [if_neg heot]
            by_cases hcan : ch = XM_CAN
            · rw [if_pos hcan]
              exact exists_finish hlast (hflush _ (Nat.le_succ _)) _ _ s
            · rw [if_neg hcan]
              have hle := le_xmodemGetRecord peer s.packnum (s.pos + 1)
              generalize xmodemGetRecord peer s.packnum (s.pos + 1) = r at hle ⊢
              obtain ⟨record, pos⟩ := r
              dsimp only at hle
              cases record with
              | none => exact ⟨_, rfl, hagain _ rfl (Nat.le_of_succ_le hle)⟩
              | some buf =>
                  obtain ⟨pos', hpos'⟩ :=
                    exists_xmodemFlush hlast (hflush pos (Nat.le_of_succ_le hle))
                  have hlt' := lt_of_xmodemFlush hpos'
                  dsimp only
                  unfold gotPacket
                  rw [hpos', Option.bind_some]
                  apply exists_grow
                  · exact nofun
                  · intro limit reallocs
                    apply exists_finish hlast (hflush _ _)
                    dsimp only
                    omega
                  · intro dest heap limit reallocs
                    refine ⟨_, rfl, ?_⟩
                    unfold consume
                    split
                    · exact nofun
                    · rintro _ ⟨⟩
                      -- The byte at `s.pos` pays for the retries.
                      unfold budget XMODEM_RETRY_LIMIT
                      dsimp only
                      omega

theorem exists_xmodemReceive {last : Nat} (hlast : ∀ k, last ≤ k → peer k = none)
    (hn : budget last s + 1 < n) : ∃ t, xmodemReceive peer a n s = some t := by
  induction n generalizing s with
  | zero => exact absurd hn (Nat.not_lt_zero _)
  | succ n ih =>
      obtain ⟨t, hturn, hdecreases⟩ := exists_turn (a := a) hlast (Nat.lt_of_succ_lt_succ hn)
      rw [xmodemReceive, hturn, Option.bind_some]
      cases t with
      | again s' =>
          apply ih
          have hlt := hdecreases s' rfl
          omega
      | returned value s' => exact ⟨_, rfl⟩
      | fault => exact ⟨_, rfl⟩

/-! ## More iterations -/

theorem finish_succ {sent : List UInt8} {value : Int} {t : Turn}
    (h : finish peer n s sent value = some t) : finish peer (n + 1) s sent value = some t := by
  obtain ⟨pos, hpos, rfl⟩ := Option.map_eq_some_iff.mp h
  rw [finish, xmodemFlush_succ hpos, Option.map_some]

theorem grow_of_imp {outOfMem outOfMem' next : Receiver → Option Turn} {t : Turn}
    (himp : ∀ s t, outOfMem s = some t → outOfMem' s = some t)
    (h : grow a s outOfMem next = some t) : grow a s outOfMem' next = some t := by
  unfold grow at h ⊢
  split at h
  next hfull =>
    rw [if_pos hfull]
    split at h
    next hdead => exact h
    next =>
      dsimp only at h ⊢
      split at h
      next => exact himp _ _ h
      next => exact h
  next hroom =>
    rw [if_neg hroom]
    exact h

theorem gotPacket_succ {t : Turn} (h : gotPacket peer a n s buf = some t) :
    gotPacket peer a (n + 1) s buf = some t := by
  obtain ⟨pos, hpos, hgrow⟩ := Option.bind_eq_some_iff.mp h
  rw [gotPacket, xmodemFlush_succ hpos, Option.bind_some]
  exact grow_of_imp (fun _ _ => finish_succ) hgrow

theorem turn_succ {t : Turn} (h : turn peer a n s = some t) :
    turn peer a (n + 1) s = some t := by
  unfold turn at h ⊢
  by_cases hretries : s.retries = 0
  · rw [if_pos hretries] at h ⊢
    exact finish_succ h
  · rw [if_neg hretries] at h ⊢
    dsimp only at h ⊢
    cases hpeer : peer s.pos with
    | none =>
        rw [hpeer] at h
        exact h
    | some ch =>
        rw [hpeer] at h
        dsimp only at h ⊢
        by_cases hother : ch ≠ XM_SOH ∧ ch ≠ XM_EOT ∧ ch ≠ XM_CAN
        · rw [if_pos hother] at h ⊢
          exact h
        · rw [if_neg hother] at h ⊢
          by_cases heot : ch = XM_EOT
          · rw [if_pos heot] at h ⊢
            exact finish_succ h
          · rw [if_neg heot] at h ⊢
            by_cases hcan : ch = XM_CAN
            · rw [if_pos hcan] at h ⊢
              exact finish_succ h
            · rw [if_neg hcan] at h ⊢
              generalize xmodemGetRecord peer s.packnum (s.pos + 1) = r at h ⊢
              obtain ⟨record, pos⟩ := r
              cases record with
              | none => exact h
              | some buf => exact gotPacket_succ h

theorem xmodemReceive_succ {t : Turn} (h : xmodemReceive peer a n s = some t) :
    xmodemReceive peer a (n + 1) s = some t := by
  induction n generalizing s with
  | zero => cases h
  | succ n ih =>
      obtain ⟨t', hturn, hrest⟩ := Option.bind_eq_some_iff.mp h
      rw [xmodemReceive, turn_succ hturn, Option.bind_some]
      cases t' with
      | again s' => exact ih hrest
      | returned value s' => exact hrest
      | fault => exact hrest

/-! ## XMODEM reception -/

theorem inv_start {dest : Addr} {heap : Heap} {block : List UInt8} (hblock : heap dest = some block)
    (hlen : block.length = XMODEM_INITIAL_BUFFER_SIZE.toNat) :
    Inv peer (Receiver.start dest heap) where
  holds := by
    constructor
    · exact ⟨block, hblock, hlen, rfl⟩
    · rfl
    · exact ⟨0, rfl⟩
    · exact ⟨8, rfl⟩
    · exact Nat.zero_le _
    · exact (by decide : XMODEM_INITIAL_BUFFER_SIZE.toNat < 2 ^ 31)
  packnum := rfl
  accepted := ⟨nofun, nofun, List.Pairwise.nil⟩
  before := nofun
  copies := nofun

/-- **Integrity of reception.**  Whatever the peer does, `xmodem_receive` accesses
nothing outside of the buffer and leaves it live, and what it returns is what the
packets numbered from 1 on contain; it ends if the peer stops sending. -/
theorem reception (peer : Peer) (a : Allocator) {dest : Addr} {heap : Heap} {block : List UInt8}
    (hblock : heap dest = some block)
    (hlen : block.length = XMODEM_INITIAL_BUFFER_SIZE.toNat) :
    (∀ n t, xmodemReceive peer a n (.start dest heap) = some t →
      ∃ value s, t = .returned value s ∧ Received peer value s) ∧
    ((∃ last, ∀ k, last ≤ k → peer k = none) →
      ∃ t n, ∀ m, n ≤ m → xmodemReceive peer a m (.start dest heap) = some t) := by
  refine ⟨fun n t => xmodemReceive_ok (inv_start hblock hlen), ?_⟩
  rintro ⟨last, hlast⟩
  obtain ⟨k, hk⟩ : ∃ k, budget last (.start dest heap) + 1 < k := ⟨_, Nat.lt_succ_self _⟩
  obtain ⟨t, ht⟩ := exists_xmodemReceive (a := a) (s := .start dest heap) hlast hk
  refine ⟨t, k, fun m hm => ?_⟩
  induction m, hm using Nat.le_induction with
  | base => exact ht
  | succ m _ ih => exact xmodemReceive_succ ih

/-- A packet of zeros, and the end of the transmission after a timeout. -/
def onePacket : Peer := fun k =>
  ((XM_SOH :: 1 :: 254 :: List.replicate 130 0).map some ++ [none, some XM_EOT])[k]?.join

/-- No memory but that of the buffer. -/
def noMemory : Allocator := ⟨fun _ _ => none, fun _ _ _ => rfl⟩

/-- The buffer at address 0. -/
def oneBlock : Heap := fun p => if p = 0 then some (List.replicate 1024 0) else none

theorem reception_onePacket :
    ∃ value s n, xmodemReceive onePacket noMemory n (.start 0 oneBlock) =
      some (.returned value s) ∧ Received onePacket value s := by
  have hblock : oneBlock 0 = some (List.replicate 1024 0) := rfl
  obtain ⟨hok, hends⟩ := reception onePacket noMemory hblock List.length_replicate
  obtain ⟨t, n, ht⟩ := hends ⟨135, fun k hk => by
    rw [onePacket, List.getElem?_eq_none (by simpa using hk)]
    rfl⟩
  obtain ⟨value, s, rfl, hreceived⟩ := hok n t (ht n (Nat.le_refl n))
  exact ⟨value, s, n, ht n (Nat.le_refl n), hreceived⟩

end Xmodem
