import EluaWebServer.Lib.Crc

/-!
# XMODEM packets

A packet is a block number, its complement, 128 bytes and their CRC.  What the
peer does is the sequence of what the calls of `xmodem_in_func` return.
-/

namespace Xmodem

open Polynomial

/-- What each call of `xmodem_in_func` returns: a byte, or a timeout. -/
abbrev Peer := Nat → Option UInt8

def PXM_ACKET_SIZE : Nat := 128

def XM_SOH : UInt8 := 0x01
def XM_ACK : UInt8 := 0x06
def XM_NAK : UInt8 := 0x15
def XM_CAN : UInt8 := 0x18
def XM_EOT : UInt8 := 0x04

/-- One of eight steps for a byte. -/
def crcShift (chk : UInt32) : UInt32 :=
  if chk &&& 0x8000 ≠ 0 then (chk <<< 1) ^^^ 0x1021 else chk <<< 1

def crcByte (chk : UInt32) (b : UInt8) : UInt32 :=
  crcShift^[8] (chk ^^^ (b.toUInt32 <<< 8))

def crc (bytes : List UInt8) : UInt32 := bytes.foldl crcByte 0 &&& 0xFFFF

/-- The bytes of a packet in `pbuf`. -/
def payload (pbuf : List UInt8) : List UInt8 := (pbuf.drop 2).take PXM_ACKET_SIZE

/-- The checks of `xmodem_get_record`. -/
def checkRecord (blocknum : UInt8) (pbuf : List UInt8) : Bool :=
  let chk := crc (payload pbuf)
  decide (pbuf[0]? = some blocknum ∧ pbuf[1]? = some (~~~ blocknum) ∧
    pbuf[130]? = some ((chk >>> 8) &&& 0xFF).toUInt8 ∧ pbuf[131]? = some (chk &&& 0xFF).toUInt8)

/-- `n` bytes, unless there is a timeout, and the number of the next call. -/
def readRecord (peer : Peer) : Nat → Nat → Option (List UInt8) × Nat
  | 0, pos => (some [], pos)
  | n + 1, pos =>
      match peer pos with
      | none => (none, pos + 1)
      | some ch =>
          let (rest, pos) := readRecord peer n (pos + 1)
          (rest.map (ch :: ·), pos)

def xmodemGetRecord (peer : Peer) (blocknum : UInt8) (pos : Nat) : Option (List UInt8) × Nat :=
  let (pbuf, pos) := readRecord peer (PXM_ACKET_SIZE + 4) pos
  (pbuf.filter (checkRecord blocknum), pos)

/-- Bytes are dropped until there is a timeout. -/
def xmodemFlush (peer : Peer) : Nat → Nat → Option Nat
  | 0, _ => none
  | n + 1, pos =>
      match peer pos with
      | none => some (pos + 1)
      | some _ => xmodemFlush peer n (pos + 1)

/-! ## The CRC -/

/-- `X ^ 16 + X ^ 12 + X ^ 5 + 1`, without `X ^ 16`. -/
def crcPoly : BitVec 16 := 0x1021#16

/-- The last two bytes of a packet are the remainder of its payload. -/
def CrcValid (pbuf : List UInt8) : Prop :=
  ∃ hi lo, pbuf[130]? = some hi ∧ pbuf[131]? = some lo ∧
    (Crc.message (payload pbuf) * X ^ 16) %ₘ Crc.generator crcPoly =
      Crc.poly (hi.toBitVec ++ lo.toBitVec : BitVec 16)

theorem generator_crcPoly : Crc.generator crcPoly = X ^ 16 + X ^ 12 + X ^ 5 + 1 := by
  have hpoly : Crc.poly crcPoly = X ^ 12 + X ^ 5 + 1 := by
    simp [Crc.poly, Finset.sum_range_succ, crcPoly]
    ring
  rw [Crc.generator, hpoly]
  ring

/-- The bits of `chk` that count. -/
def low16 (chk : UInt32) : BitVec 16 := chk.toBitVec.setWidth 16

theorem low16_xor (a b : UInt32) : low16 (a ^^^ b) = low16 a ^^^ low16 b := by
  rw [low16, UInt32.toBitVec_xor, BitVec.setWidth_xor]
  rfl

theorem low16_shiftLeft_one (chk : UInt32) : low16 (chk <<< 1) = low16 chk <<< 1 := by
  apply BitVec.eq_of_getLsbD_eq
  intro i hi
  simp [low16, hi]

theorem msb_low16 (chk : UInt32) : chk &&& 0x8000 ≠ 0 ↔ (low16 chk).msb = true := by
  have hand : (chk &&& 0x8000).toBitVec = chk.toBitVec &&& BitVec.twoPow 32 15 := rfl
  have hmsb : (low16 chk).msb = chk.toBitVec.getLsbD 15 := by
    rw [BitVec.msb_eq_getLsbD_last, low16, BitVec.getLsbD_setWidth]
    rfl
  rw [hmsb, ne_eq, ← UInt32.toBitVec_inj, hand, BitVec.and_twoPow]
  cases chk.toBitVec.getLsbD 15 <;> decide

theorem low16_crcShift (chk : UInt32) : low16 (crcShift chk) = Crc.shift crcPoly (low16 chk) := by
  unfold crcShift Crc.shift
  by_cases hmsb : (low16 chk).msb = true
  · rw [if_pos hmsb, if_pos ((msb_low16 chk).mpr hmsb), low16_xor, low16_shiftLeft_one]
    rfl
  · rw [if_neg hmsb, if_neg fun h => hmsb ((msb_low16 chk).mp h), low16_shiftLeft_one]

theorem low16_crcByte (chk : UInt32) (b : UInt8) :
    low16 (crcByte chk b) = Crc.byte crcPoly (low16 chk) b := by
  have hshifts : Function.Semiconj low16 crcShift (Crc.shift crcPoly) := low16_crcShift
  have hbyte : low16 (b.toUInt32 <<< 8) = b.toBitVec.setWidth 16 <<< (16 - 8) := by
    apply BitVec.eq_of_getLsbD_eq
    intro i hi
    simp [low16, hi]
  rw [crcByte, hshifts.iterate_right 8, low16_xor, hbyte]
  rfl

theorem low16_crc (bytes : List UInt8) : low16 (crc bytes) = Crc.code crcPoly bytes := by
  have hfold : ∀ chk, low16 (bytes.foldl crcByte chk) =
      bytes.foldl (Crc.byte crcPoly) (low16 chk) := by
    induction bytes with
    | nil => exact fun chk => rfl
    | cons b bytes ih =>
        intro chk
        rw [List.foldl_cons, List.foldl_cons, ih, low16_crcByte]
  have hmask : ∀ chk, low16 (chk &&& 0xFFFF) = low16 chk := by
    intro chk
    have hones : (0xFFFF : UInt32).toBitVec.setWidth 16 = BitVec.allOnes 16 := rfl
    rw [low16, UInt32.toBitVec_and, BitVec.setWidth_and, hones, BitVec.and_allOnes]
    rfl
  rw [crc, hmask, hfold]
  rfl

/-! ## What a packet is -/

/-- Bytes that the peer sends one after the other. -/
def SendsAt (peer : Peer) (pos : Nat) (bytes : List UInt8) : Prop :=
  ∀ i c, bytes[i]? = some c → peer (pos + i) = some c

/-- What `xmodem_get_record` accepts. -/
structure IsRecord (blocknum : UInt8) (pbuf : List UInt8) : Prop where
  length : pbuf.length = PXM_ACKET_SIZE + 4
  number : pbuf[0]? = some blocknum
  complement : pbuf[1]? = some (~~~ blocknum)
  crc : CrcValid pbuf

theorem low16_eq_append (chk : UInt32) :
    low16 chk =
      ((chk >>> 8) &&& 0xFF).toUInt8.toBitVec ++ (chk &&& 0xFF).toUInt8.toBitVec := by
  have hones : (0xFF : UInt32).toBitVec.setWidth 8 = BitVec.allOnes 8 := rfl
  have hhi : ((chk >>> 8) &&& 0xFF).toUInt8.toBitVec = (chk >>> 8).toBitVec.setWidth 8 := by
    rw [UInt32.toBitVec_toUInt8, UInt32.toBitVec_and, BitVec.setWidth_and, hones,
      BitVec.and_allOnes]
  have hlo : (chk &&& 0xFF).toUInt8.toBitVec = chk.toBitVec.setWidth 8 := by
    rw [UInt32.toBitVec_toUInt8, UInt32.toBitVec_and, BitVec.setWidth_and, hones,
      BitVec.and_allOnes]
  rw [hhi, hlo]
  apply BitVec.eq_of_getLsbD_eq
  intro i hi
  rw [BitVec.getLsbD_append]
  by_cases hlow : i < 8
  · simp [low16, hi, hlow]
  · have hhigh : i - 8 < 8 := by omega
    have hadd : 8 + (i - 8) = i := by omega
    simp [low16, hi, hlow, hhigh, hadd]

theorem isRecord_of_check {blocknum : UInt8} {pbuf : List UInt8}
    (hlen : pbuf.length = PXM_ACKET_SIZE + 4) (h : checkRecord blocknum pbuf = true) :
    IsRecord blocknum pbuf := by
  obtain ⟨hnumber, hcomplement, hhi, hlo⟩ := of_decide_eq_true h
  refine ⟨hlen, hnumber, hcomplement, _, _, hhi, hlo, ?_⟩
  rw [Crc.message_modByMonic_eq_iff (by decide), ← low16_crc]
  exact low16_eq_append _

theorem readRecord_some {peer : Peer} {n pos pos' : Nat} {pbuf : List UInt8}
    (h : readRecord peer n pos = (some pbuf, pos')) :
    pbuf.length = n ∧ SendsAt peer pos pbuf ∧ pos' = pos + n := by
  induction n generalizing pos pbuf with
  | zero =>
      obtain ⟨hnil, rfl⟩ := Prod.mk.inj h
      obtain rfl := Option.some.inj hnil
      exact ⟨rfl, nofun, rfl⟩
  | succ n ih =>
      unfold readRecord at h
      cases hpeer : peer pos with
      | none =>
          rw [hpeer] at h
          cases (Prod.mk.inj h).1
      | some ch =>
          rw [hpeer] at h
          obtain ⟨hrest, rfl⟩ := Prod.mk.inj h
          obtain ⟨rest, hsome, rfl⟩ := Option.map_eq_some_iff.mp hrest
          obtain ⟨hlen, hsends, hpos⟩ := ih (Prod.ext hsome rfl)
          refine ⟨congrArg (· + 1) hlen, ?_, ?_⟩
          · intro i c hi
            cases i with
            | zero => exact hpeer.trans hi
            | succ i =>
                rw [← Nat.add_assoc, Nat.add_right_comm]
                exact hsends i c hi
          · rw [hpos]
            omega

theorem le_readRecord (peer : Peer) (n pos : Nat) : pos ≤ (readRecord peer n pos).2 := by
  induction n generalizing pos with
  | zero => exact Nat.le_refl pos
  | succ n ih =>
      unfold readRecord
      cases peer pos with
      | none => exact Nat.le_succ pos
      | some ch => exact Nat.le_trans (Nat.le_succ pos) (ih (pos + 1))

/-- **A packet is accepted** only if the peer has sent it. -/
theorem xmodemGetRecord_some {peer : Peer} {blocknum : UInt8} {pos pos' : Nat}
    {pbuf : List UInt8} (h : xmodemGetRecord peer blocknum pos = (some pbuf, pos')) :
    IsRecord blocknum pbuf ∧ SendsAt peer pos pbuf ∧ pos' = pos + (PXM_ACKET_SIZE + 4) := by
  unfold xmodemGetRecord at h
  generalize hr : readRecord peer (PXM_ACKET_SIZE + 4) pos = r at h
  obtain ⟨read, p⟩ := r
  obtain ⟨hfilter, rfl⟩ := Prod.mk.inj h
  obtain ⟨rfl, hcheck⟩ := Option.filter_eq_some_iff.mp hfilter
  obtain ⟨hlen, hsends, hpos'⟩ := readRecord_some hr
  exact ⟨isRecord_of_check hlen hcheck, hsends, hpos'⟩

theorem le_xmodemGetRecord (peer : Peer) (blocknum : UInt8) (pos : Nat) :
    pos ≤ (xmodemGetRecord peer blocknum pos).2 := by
  unfold xmodemGetRecord
  exact le_readRecord peer _ pos

/-! ## Dropping bytes -/

theorem lt_of_xmodemFlush {peer : Peer} {n pos pos' : Nat}
    (h : xmodemFlush peer n pos = some pos') : pos < pos' := by
  induction n generalizing pos with
  | zero => cases h
  | succ n ih =>
      unfold xmodemFlush at h
      cases hpeer : peer pos with
      | none =>
          rw [hpeer] at h
          exact Option.some.inj h ▸ Nat.lt_succ_self pos
      | some ch =>
          rw [hpeer] at h
          exact Nat.lt_of_succ_lt (ih h)

theorem xmodemFlush_succ {peer : Peer} {n pos pos' : Nat}
    (h : xmodemFlush peer n pos = some pos') : xmodemFlush peer (n + 1) pos = some pos' := by
  induction n generalizing pos with
  | zero => cases h
  | succ n ih =>
      unfold xmodemFlush at h ⊢
      cases hpeer : peer pos with
      | none =>
          rw [hpeer] at h
          exact h
      | some ch =>
          rw [hpeer] at h
          exact ih h

/-- A peer that stops sending. -/
theorem exists_xmodemFlush {peer : Peer} {last : Nat} (hlast : ∀ k, last ≤ k → peer k = none)
    {n pos : Nat} (hn : last - pos < n) : ∃ pos', xmodemFlush peer n pos = some pos' := by
  induction n generalizing pos with
  | zero => exact absurd hn (Nat.not_lt_zero _)
  | succ n ih =>
      unfold xmodemFlush
      cases hpeer : peer pos with
      | none => exact ⟨pos + 1, rfl⟩
      | some ch =>
          have hlt : pos < last := by
            apply Nat.lt_of_not_le
            intro hle
            rw [hlast pos hle] at hpeer
            cases hpeer
          exact ih (by omega)

end Xmodem
