import EluaWebServer.Xmodem.Receive
import Mathlib.Logic.Relation

/-!
# Packets that are sent again

A sender that gets no answer sends its packet again.  The receiver has counted the packet by then,
and takes it for a wrong one.
-/

namespace Xmodem

open Buffer

/-- One turn after another. -/
def Run (peer : Peer) (a : Allocator) : Receiver → Receiver → Prop :=
  Relation.ReflTransGen fun s s' => ∃ n, turn peer a n s = some (.again s')

/-- The receiver acknowledges what comes, and takes no packet. -/
def Acknowledges (peer : Peer) (a : Allocator) (s : Receiver) : Prop :=
  ∃ n s' more, turn peer a n s = some (.again s') ∧ s'.sent = s.sent ++ more ∧ XM_ACK ∈ more ∧
    s'.accepted = s.accepted

/-- The packet comes again each time, as long as it is waited for. -/
def Repeats (peer : Peer) (s : Receiver) (buf : List UInt8) : Prop :=
  ∀ i < s.retries, SendsAt peer (s.pos + (PXM_ACKET_SIZE + 5) * i) (XM_SOH :: buf)

variable {peer : Peer} {a : Allocator} {s s' : Receiver} {buf : List UInt8} {n pos : Nat}

/-! ## A turn -/

theorem SendsAt.tail {b : UInt8} (h : SendsAt peer pos (b :: buf)) : SendsAt peer (pos + 1) buf := by
  intro i c hi
  rw [Nat.add_right_comm]
  exact h (i + 1) c hi

/-- Bytes that are sent are read. -/
theorem readRecord_of_sends (h : SendsAt peer pos buf) :
    readRecord peer buf.length pos = (some buf, pos + buf.length) := by
  induction buf generalizing pos with
  | nil => rfl
  | cons b buf ih =>
      have hfirst : peer pos = some b := h 0 b rfl
      rw [List.length_cons, readRecord, hfirst]
      dsimp only
      rw [ih h.tail, Nat.add_right_comm]
      rfl

/-- A turn in which a packet comes. -/
theorem turn_record (hretries : s.retries ≠ 0) (hsoh : peer s.pos = some XM_SOH) (n : Nat) :
    turn peer a n s =
      match xmodemGetRecord peer s.packnum (s.pos + 1) with
      | (none, pos) => some (.again { s with
          starting := false
          retries := s.retries - 1
          pos := pos
          sent := (if s.starting then s.sent ++ [0x43] else s.sent) ++ [XM_NAK] })
      | (some buf, pos) => gotPacket peer a n { s with
          starting := false
          retries := s.retries - 1
          pos := pos
          sent := if s.starting then s.sent ++ [0x43] else s.sent
          accepted := s.accepted ++ [(s.pos, buf)] } buf := by
  have hother : ¬(XM_SOH ≠ XM_SOH ∧ XM_SOH ≠ XM_EOT ∧ XM_SOH ≠ XM_CAN) := fun h => h.1 rfl
  rw [turn, if_neg hretries]
  dsimp only
  rw [hsoh]
  dsimp only
  rw [if_neg hother, if_neg (by decide)]
  refine (if_neg (by decide)).trans ?_
  obtain ⟨record, pos⟩ := xmodemGetRecord peer s.packnum (s.pos + 1)
  cases record with
  | none => rfl
  | some buf => rfl

/-- **A packet that does not pass the checks** is answered with `XM_NAK`. -/
theorem turn_rejected (hretries : s.retries ≠ 0) (hsends : SendsAt peer s.pos (XM_SOH :: buf))
    (hlength : buf.length = PXM_ACKET_SIZE + 4) (hcheck : checkRecord s.packnum buf = false)
    (n : Nat) :
    turn peer a n s = some (.again { s with
      starting := false
      retries := s.retries - 1
      pos := s.pos + (PXM_ACKET_SIZE + 5)
      sent := (if s.starting then s.sent ++ [0x43] else s.sent) ++ [XM_NAK] }) := by
  have hsoh : peer s.pos = some XM_SOH := hsends 0 XM_SOH rfl
  have hget : xmodemGetRecord peer s.packnum (s.pos + 1) =
      (none, s.pos + (PXM_ACKET_SIZE + 5)) := by
    have hread := readRecord_of_sends hsends.tail
    rw [hlength] at hread
    have hpos : s.pos + 1 + (PXM_ACKET_SIZE + 4) = s.pos + (PXM_ACKET_SIZE + 5) := by omega
    rw [xmodemGetRecord, hread, hpos]
    dsimp only
    rw [Option.filter_some, hcheck]
    rfl
  rw [turn_record hretries hsoh, hget]

/-- A packet of the block before is such a one, also where the block numbers wrap. -/
theorem checkRecord_before {k : Nat} (h : IsRecord (UInt8.ofNat k) buf) :
    checkRecord (UInt8.ofNat (k + 1)) buf = false := by
  have hne : UInt8.ofNat k ≠ UInt8.ofNat (k + 1) := by
    intro heq
    have hmod := congrArg UInt8.toNat heq
    rw [UInt8.toNat_ofNat', UInt8.toNat_ofNat'] at hmod
    omega
  rw [checkRecord, decide_eq_false_iff_not]
  rintro ⟨hnumber, -⟩
  rw [h.number] at hnumber
  exact hne (Option.some.inj hnumber)

/-- The answer is no acknowledgement. -/
theorem not_acknowledges (hsends : SendsAt peer s.pos (XM_SOH :: buf))
    (hlength : buf.length = PXM_ACKET_SIZE + 4) (hcheck : checkRecord s.packnum buf = false) :
    ¬ Acknowledges peer a s := by
  rintro ⟨n, s', more, hturn, hsent, hack, -⟩
  by_cases hretries : s.retries = 0
  · rw [turn, if_pos hretries] at hturn
    obtain ⟨pos, -, hreturned⟩ := Option.map_eq_some_iff.mp hturn
    cases hreturned
  · rw [turn_rejected hretries hsends hlength hcheck] at hturn
    obtain rfl := Turn.again.inj (Option.some.inj hturn)
    dsimp only at hsent
    split at hsent
    · rw [List.append_assoc] at hsent
      obtain rfl := List.append_cancel_left hsent
      exact absurd hack (by decide)
    · obtain rfl := List.append_cancel_left hsent
      exact absurd hack (by decide)

/-! ## A run -/

/-- **The transfer is given up** when the packet keeps coming. -/
theorem gives_up (hlength : buf.length = PXM_ACKET_SIZE + 4)
    (hcheck : checkRecord s.packnum buf = false) (hrepeats : Repeats peer s buf) {t : Turn}
    (hreceive : xmodemReceive peer a n s = some t) :
    ∃ s', t = .returned XMODEM_ERROR_RETRYEXCEED s' ∧ s'.accepted = s.accepted := by
  induction n generalizing s with
  | zero => cases hreceive
  | succ n ih =>
      by_cases hretries : s.retries = 0
      · rw [xmodemReceive, turn, if_pos hretries] at hreceive
        obtain ⟨t', hfinish, hreturned⟩ := Option.bind_eq_some_iff.mp hreceive
        obtain ⟨pos, -, rfl⟩ := Option.map_eq_some_iff.mp hfinish
        exact ⟨_, (Option.some.inj hreturned).symm, rfl⟩
      · have hfirst := hrepeats 0 (Nat.pos_of_ne_zero hretries)
        rw [Nat.mul_zero, Nat.add_zero] at hfirst
        rw [xmodemReceive, turn_rejected hretries hfirst hlength hcheck, Option.bind_some]
          at hreceive
        refine ih (s := { s with
          starting := false
          retries := s.retries - 1
          pos := s.pos + (PXM_ACKET_SIZE + 5)
          sent := (if s.starting then s.sent ++ [0x43] else s.sent) ++ [XM_NAK] }) hcheck ?_ hreceive
        intro i hi
        have hnext := hrepeats (i + 1) (by dsimp only at hi; omega)
        rw [Nat.mul_succ, Nat.add_comm _ (PXM_ACKET_SIZE + 5), ← Nat.add_assoc] at hnext
        exact hnext

theorem Run.inv (hrun : Run peer a s s') (hinv : Inv peer s) : Inv peer s' := by
  induction hrun with
  | refl => exact hinv
  | tail _ hstep ih =>
      obtain ⟨n, hturn⟩ := hstep
      exact turn_ok ih hturn

/-- The last packet accepted has the number before the one that is expected. -/
theorem Inv.last (hinv : Inv peer s) {p : Nat × List UInt8}
    (hlast : s.accepted.getLast? = some p) :
    p.2.length = PXM_ACKET_SIZE + 4 ∧ checkRecord s.packnum p.2 = false := by
  have hne : s.accepted ≠ [] := by
    rintro hnil
    rw [hnil] at hlast
    cases hlast
  have hpos := List.length_pos_iff.mpr hne
  rw [List.getLast?_eq_getElem?] at hlast
  have hrecord := hinv.accepted.record _ p hlast
  rw [Nat.sub_add_cancel hpos] at hrecord
  refine ⟨hrecord.length, ?_⟩
  rw [hinv.packnum]
  exact checkRecord_before hrecord

/-- **Duplicates.**  In no run is the packet that was accepted last acknowledged when it comes
again, and a sender that keeps sending it makes the receiver give up. -/
theorem duplicate_rejected (peer : Peer) (a : Allocator) {dest : Addr} {heap : Heap}
    {block : List UInt8} (hblock : heap dest = some block)
    (hlen : block.length = XMODEM_INITIAL_BUFFER_SIZE.toNat) {s : Receiver}
    (hrun : Run peer a (.start dest heap) s) {p : Nat × List UInt8}
    (hlast : s.accepted.getLast? = some p) (hsends : SendsAt peer s.pos (XM_SOH :: p.2)) :
    ¬ Acknowledges peer a s ∧
      (Repeats peer s p.2 → ∀ n t, xmodemReceive peer a n s = some t →
        ∃ s', t = .returned XMODEM_ERROR_RETRYEXCEED s' ∧ s'.accepted = s.accepted) := by
  obtain ⟨hlength, hcheck⟩ := (hrun.inv (inv_start hblock hlen)).last hlast
  exact ⟨not_acknowledges hsends hlength hcheck,
    fun hrepeats n t hreceive => gives_up hlength hcheck hrepeats hreceive⟩

/-- The first packet of zeros. -/
def zeros : List UInt8 := 1 :: 254 :: List.replicate 130 0

/-- A sender that has not got the answer to it, and sends it once more. -/
def twice : Peer := fun k =>
  ((XM_SOH :: zeros).map some ++ none :: (XM_SOH :: zeros).map some)[k]?.join

theorem crc_replicate_zero (n : Nat) : crc (List.replicate n 0) = 0 := by
  have hfold : (List.replicate n (0 : UInt8)).foldl crcByte 0 = 0 := by
    induction n with
    | zero => rfl
    | succ n ih =>
        have hbyte : crcByte 0 0 = 0 := by decide
        rw [List.replicate_succ, List.foldl_cons, hbyte, ih]
  rw [crc, hfold]
  rfl

theorem payload_zeros : payload zeros = List.replicate 128 0 := by
  rw [payload, zeros, List.drop_succ_cons, List.drop_succ_cons, List.drop_zero, List.take_replicate]
  rfl

theorem checkRecord_zeros : checkRecord 1 zeros = true := by
  rw [checkRecord, payload_zeros, crc_replicate_zero]
  exact decide_eq_true ⟨rfl, rfl, rfl, rfl⟩

theorem sendsAt_twice {pos : Nat} (hpos : pos = 0 ∨ pos = 134) :
    SendsAt twice pos (XM_SOH :: zeros) := by
  intro i c hi
  have hlt : i < 133 := (List.getElem?_eq_some_iff.mp hi).1
  rcases hpos with rfl | rfl
  · rw [twice, Nat.zero_add, List.getElem?_append_left (by simpa [zeros] using hlt),
      List.getElem?_map, hi]
    rfl
  · rw [twice, List.getElem?_append_right (by simp [zeros]; omega)]
    have hindex : 134 + i - ((XM_SOH :: zeros).map some).length = i + 1 := by
      have hlength : ((XM_SOH :: zeros).map some).length = 133 := rfl
      omega
    rw [hindex, List.getElem?_cons_succ, List.getElem?_map, hi]
    rfl

theorem xmodemGetRecord_zeros (hsends : SendsAt peer 0 (XM_SOH :: zeros)) :
    xmodemGetRecord peer 1 1 = (some zeros, 133) := by
  have hread := readRecord_of_sends hsends.tail
  have hlength : zeros.length = PXM_ACKET_SIZE + 4 := rfl
  rw [hlength] at hread
  rw [xmodemGetRecord, hread]
  dsimp only
  rw [Option.filter_some, checkRecord_zeros]
  rfl

/-- The packet is accepted the first time. -/
theorem turn_first {dest : Addr} {heap : Heap} {block : List UInt8}
    (hblock : heap dest = some block) (hlen : block.length = 1024)
    (hsoh : peer 0 = some XM_SOH) (hget : xmodemGetRecord peer 1 1 = (some zeros, 133))
    (hflush : xmodemFlush peer 1 133 = some 134) :
    ∃ s, turn peer a 1 (.start dest heap) = some (.again s) ∧
      s.accepted = [(0, zeros)] ∧ s.pos = 134 ∧ s.retries = 20 ∧ s.size = 128 := by
  have hretries : (Receiver.start dest heap).retries ≠ 0 := Nat.succ_ne_zero 19
  have hroom : ¬((0 : UInt32) + PXM_ACKET_SIZE.toUInt32 > XMODEM_INITIAL_BUFFER_SIZE) := by decide
  obtain ⟨written, hstore⟩ : ∃ written,
      storeAll block (0 : UInt32).toNat (payload zeros) = some written := by
    refine ⟨_, storeAll_eq_splice ?_⟩
    rw [payload_zeros, List.length_replicate, hlen]
    exact (by decide : 0 + 128 ≤ 1024)
  have hfirst : xmodemGetRecord peer (Receiver.start dest heap).packnum
      ((Receiver.start dest heap).pos + 1) = (some zeros, 133) := hget
  rw [turn_record hretries hsoh, hfirst]
  dsimp only [Receiver.start]
  rw [gotPacket, hflush, Option.bind_some, grow, if_neg hroom, consume]
  dsimp only
  rw [hblock, Option.bind_some, hstore]
  exact ⟨_, rfl, rfl, rfl, rfl, rfl⟩

theorem turn_twice : ∃ s, turn twice noMemory 1 (.start 0 oneBlock) = some (.again s) ∧
    s.accepted = [(0, zeros)] ∧ s.pos = 134 := by
  have hblock : oneBlock 0 = some (List.replicate 1024 0) := rfl
  obtain ⟨s, hturn, haccepted, hpos, -⟩ :=
    turn_first hblock List.length_replicate rfl
      (xmodemGetRecord_zeros (sendsAt_twice (.inl rfl))) rfl
  exact ⟨s, hturn, haccepted, hpos⟩

theorem duplicate_rejected_twice : ∃ s, Run twice noMemory (.start 0 oneBlock) s ∧
    s.accepted = [(0, zeros)] ∧ ¬ Acknowledges twice noMemory s := by
  have hblock : oneBlock 0 = some (List.replicate 1024 0) := rfl
  obtain ⟨s, hturn, haccepted, hpos⟩ := turn_twice
  have hrun : Run twice noMemory (.start 0 oneBlock) s := .single ⟨1, hturn⟩
  refine ⟨s, hrun, haccepted, ?_⟩
  exact (duplicate_rejected twice noMemory hblock List.length_replicate hrun
    (congrArg List.getLast? haccepted) (hpos ▸ sendsAt_twice (.inr rfl))).1

/-- The duplicate of the first packet. -/
theorem not_acknowledges_twice : ∃ s, Run twice noMemory (.start 0 oneBlock) s ∧
    s.accepted = [(0, zeros)] ∧ SendsAt twice s.pos (XM_SOH :: zeros) ∧
    ¬ Acknowledges twice noMemory s := by
  have hblock : oneBlock 0 = some (List.replicate 1024 0) := rfl
  obtain ⟨s, hturn, haccepted, hpos⟩ := turn_twice
  have hrun : Run twice noMemory (.start 0 oneBlock) s := .single ⟨1, hturn⟩
  have hsends := hpos ▸ sendsAt_twice (.inr rfl)
  obtain ⟨hlength, hcheck⟩ := (hrun.inv (inv_start hblock List.length_replicate)).last
    (congrArg List.getLast? haccepted)
  exact ⟨s, hrun, haccepted, hsends, not_acknowledges hsends hlength hcheck⟩

end Xmodem
