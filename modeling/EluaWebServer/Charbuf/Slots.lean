import EluaWebServer.Charbuf.Buf
import EluaWebServer.Lib.Ring

/-!
# Slots of a character buffer

The elements of a buffer as the slots of a ring.  Since the pointers have 16
bits, the ring has no more than 65536 bytes, also where the buffer has more.
-/

namespace Charbuf

open Memory

/-- The number of slots that the pointers go around in. -/
def BufDesc.slots (p : BufDesc) : Nat := 2 ^ (min p.logsize 16 - p.logdsize)

/-- The bytes of slot `i`. -/
def BufDesc.elem (p : BufDesc) (i : Nat) : List UInt8 :=
  loadBytes p.buf (p.realDsize * i) p.realDsize

/-- Where slot `i` is, and its bytes. -/
def BufDesc.slot (p : BufDesc) (i : Nat) : Nat × List UInt8 := (p.realDsize * i, p.elem i)

/-- The sizes of a buffer that `buf_set` can make. -/
structure Sized (logsize logdsize : Nat) : Prop where
  enabled : logsize ≠ BUF_SIZE_NONE
  elem_le : logdsize ≤ logsize
  elem_lt : logdsize ≤ 2
  size_le : logsize ≤ logdsize + 15

/-- The elements not read yet, with the places they were written to, are in
the slots from position `r` on, and the next one goes behind them. -/
structure Holding (p : BufDesc) (r : Nat) (unread : List (Nat × List UInt8)) : Prop where
  sized : Sized p.logsize p.logdsize
  wptr : p.wptr = p.realDsize * ((r + unread.length) % p.slots)
  holds : Ring.Holds p.slot p.slots r unread
  room : unread.length ≤ p.slots

section

variable {p : BufDesc}

theorem BufDesc.slots_pos (p : BufDesc) : 0 < p.slots := Nat.pow_pos (by decide)

theorem BufDesc.slots_le (p : BufDesc) : p.slots ≤ p.realSize :=
  Nat.pow_le_pow_right (by decide) (by omega)

theorem Sized.realSize_lt (h : Sized p.logsize p.logdsize) : p.realSize < 2 ^ 16 :=
  Nat.pow_lt_pow_right (by decide) (by have := h.size_le; omega)

/-- The bytes that the pointers go around in. -/
theorem Sized.ring_bytes (h : Sized p.logsize p.logdsize) : p.realDsize * p.slots = 2 ^ min p.logsize 16 := by
  rw [BufDesc.realDsize, BufDesc.slots, ← Nat.pow_add]
  congr 1
  have := h.elem_le
  have := h.elem_lt
  omega

/-- A pointer moves on by one slot. -/
theorem Sized.modIncr_slot (h : Sized p.logsize p.logdsize) (i : Nat) :
    p.modIncr (p.realDsize * (i % p.slots)) = p.realDsize * ((i + 1) % p.slots) := by
  have hmod : p.modIncr (p.realDsize * (i % p.slots)) =
      p.realDsize * (i % p.slots + 1) % 2 ^ min p.logsize 16 := by
    rw [BufDesc.modIncr, Nat.and_two_pow_sub_one_eq_mod]
    change (p.realDsize * (i % p.slots) + p.realDsize) % 2 ^ p.logsize % 2 ^ 16 = _
    rw [← Nat.mul_succ]
    by_cases hle : p.logsize ≤ 16
    · rw [Nat.min_eq_left hle]
      refine Nat.mod_eq_of_lt (Nat.lt_of_lt_of_le (Nat.mod_lt _ (Nat.pow_pos (by decide))) ?_)
      exact Nat.pow_le_pow_right (by decide) hle
    · rw [Nat.min_eq_right (by omega)]
      exact Nat.mod_mod_of_dvd _ (Nat.pow_dvd_pow 2 (by omega))
  rw [hmod, ← h.ring_bytes, Nat.mul_mod_mul_left, Nat.mod_add_mod]

/-- Writing a slot. -/
theorem slot_store_self (p : BufDesc) (w : Nat) {bs : List UInt8} (hlen : bs.length = p.realDsize) :
    BufDesc.slot { p with buf := storeBytes p.buf (p.realDsize * w) bs } w =
      (p.realDsize * w, bs) := by
  have hload := loadBytes_storeBytes p.buf (p.realDsize * w) bs
  rw [hlen] at hload
  exact congrArg (Prod.mk _) hload

/-- Writing a slot leaves the others. -/
theorem slot_store_of_ne (p : BufDesc) {i w : Nat} {bs : List UInt8}
    (hlen : bs.length = p.realDsize) (hne : i ≠ w) :
    BufDesc.slot { p with buf := storeBytes p.buf (p.realDsize * w) bs } i = p.slot i := by
  refine congrArg (Prod.mk _) (loadBytes_congr fun a hlo hhi => storeBytes_of_outside ?_)
  rw [hlen]
  rcases Nat.lt_or_gt_of_ne hne with hlt | hgt
  · left
    have hmul : p.realDsize * (i + 1) ≤ p.realDsize * w := Nat.mul_le_mul_left _ hlt
    rw [Nat.mul_succ] at hmul
    exact Nat.lt_of_lt_of_le hhi hmul
  · right
    have hmul : p.realDsize * (w + 1) ≤ p.realDsize * i := Nat.mul_le_mul_left _ hgt
    rw [Nat.mul_succ] at hmul
    exact Nat.le_trans hmul hlo

/-! ## The operations on the slots -/

variable {r : Nat} {unread : List (Nat × List UInt8)}

/-- Writing where a slot is free. -/
theorem Holding.bufWrite (h : Holding p r unread) (hcount : p.count ≤ unread.length)
    (hroom : unread.length < p.slots) (data : Mem) :
    ∃ p', bufWrite p data = (p', .PLATFORM_OK) ∧
      Holding p' r (unread ++ [(p.wptr, loadBytes data 0 p.realDsize)]) ∧
      p'.logsize = p.logsize ∧ p'.logdsize = p.logdsize ∧ p'.rptr = p.rptr ∧
      p'.count = p.count + 1 := by
  have hslots := p.slots_le
  have hsize := h.sized.realSize_lt
  have hlen : (loadBytes data 0 p.realDsize).length = p.realDsize := length_loadBytes _ _ _
  rw [Charbuf.bufWrite, if_neg h.sized.enabled, if_neg (by omega)]
  refine ⟨_, rfl, ⟨h.sized, ?_, ?_, ?_⟩, rfl, rfl, rfl, Nat.mod_eq_of_lt (by omega)⟩
  · rw [List.length_append, List.length_singleton, ← Nat.add_assoc]
    change p.modIncr p.wptr = _
    rw [h.wptr]
    exact h.sized.modIncr_slot _
  · refine h.holds.push hroom ?_ fun i hi => ?_
    · rw [h.wptr]
      exact slot_store_self p _ hlen
    · rw [h.wptr]
      exact slot_store_of_ne p hlen hi
  · rw [List.length_append, List.length_singleton]
    exact hroom

theorem Holding.nil (hsized : Sized p.logsize p.logdsize) (hwptr : p.wptr = 0) :
    Holding p 0 [] := by
  refine ⟨hsized, ?_, trivial, Nat.zero_le _⟩
  rw [hwptr, List.length_nil, Nat.zero_mod, Nat.mul_zero]

theorem count_readDecrement {n : Nat} (hcount : p.count = n + 1) : (readDecrement p).count = n := by
  simp only [readDecrement, hcount, if_neg (Nat.succ_ne_zero n), Nat.add_sub_cancel]

/-- The first element has been read. -/
theorem Holding.tail {e : Nat × List UInt8} (h : Holding p r (e :: unread)) :
    Holding p (r + 1) unread := by
  have hroom := h.room
  have hwptr := h.wptr
  rw [List.length_cons] at hroom hwptr
  rw [← Nat.add_assoc, Nat.add_right_comm] at hwptr
  exact ⟨h.sized, hwptr, h.holds.2, by omega⟩

end

end Charbuf
