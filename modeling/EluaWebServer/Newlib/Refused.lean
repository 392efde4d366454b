import EluaWebServer.Newlib.Sbrk
import Mathlib.Algebra.Ring.Int.Defs

/-!
# Requests that are refused

The loop of `_sbrk_r` moves `heap_ptr` and `mem_index` while it looks for room.  A call that finds
none leaves them behind the last memory space, where no call finds anything.
-/

namespace Newlib

variable (P : Spaces) (h : Heap) (incr : Int32)

/-- A call with this increment hands out memory. -/
def Heap.Serves : Prop :=
  ∃ p h', sbrkR P h incr = some (p, h') ∧ p ≠ -1

/-- A memory space that the loop can come to takes some increment: its pointer is not above the
last free address, or so high that the sum can wrap. -/
def Heap.HasRoom : Prop :=
  ∃ k, (∀ i ≤ k, (h.next i).pointer P ≠ 0) ∧
    ((h.next k).pointer P ≤ platformGetLastFreeRam P (h.next k).memIndex ∨
      2 ^ 31 < ((h.next k).pointer P).toNat)

variable {P h incr} {s s' : System}

/-! ## Pointers -/

/-- No address is -1 when it has been aligned. -/
theorem aligned_ne_minusOne (p q : UInt32) :
    (if p &&& (MIN_ALIGN - 1) ≠ 0 then q <<< MIN_ALIGN_SHIFT else p) ≠ -1 := by
  split
  · have hminus : (-1 : UInt32).toNat = 4294967295 := rfl
    rw [Ne, ← UInt32.toNat_inj, hminus]
    simp only [UInt32.toNat_shiftLeft, MIN_ALIGN_SHIFT, UInt32.reduceToNat, Nat.reduceMod,
      Nat.shiftLeft_eq, Nat.reducePow]
    omega
  · rename_i haligned
    rintro rfl
    exact haligned (by decide)

theorem firstFreeRam_ne_minusOne (P : Spaces) (id : Nat) : platformGetFirstFreeRam P id ≠ -1 := by
  unfold platformGetFirstFreeRam
  split
  · decide
  · exact aligned_ne_minusOne _ _

theorem lastFreeRam_ne_minusOne (P : Spaces) (id : Nat) : platformGetLastFreeRam P id ≠ -1 := by
  unfold platformGetLastFreeRam
  split
  · decide
  · exact aligned_ne_minusOne _ _

theorem pointer_next_ne_minusOne (hptr : h.heapPtr ≠ -1) (k : Nat) :
    (h.next k).pointer P ≠ -1 := by
  unfold Heap.pointer
  split
  · exact firstFreeRam_ne_minusOne P _
  · rename_i hne
    cases k with
    | zero => exact hptr
    | succ k => exact absurd rfl hne

/-- A call leaves no pointer that means an error. -/
theorem heapPtr_of_step (hptr : s.heap.heapPtr ≠ -1) (hstep : s.step P incr = some s') :
    s'.heap.heapPtr ≠ -1 := by
  obtain ⟨⟨p, h'⟩, hcall, rfl⟩ := Option.map_eq_some_iff.mp hstep
  unfold sbrkR at hcall
  split at hcall
  · obtain ⟨-, rfl⟩ := Prod.mk.inj (Option.some.inj hcall)
    exact hptr
  · obtain ⟨k, -, ⟨-, -, rfl⟩ | ⟨⟨-, hroom⟩, rfl, rfl⟩⟩ := sbrkLoop_cases hcall
    · exact (by decide : (0 : UInt32) ≠ -1)
    · intro hnext
      dsimp only at hnext
      have hlast := (platformGetLastFreeRam P (s.heap.next k).memIndex).toNat_lt
      have hne : (platformGetLastFreeRam P (s.heap.next k).memIndex).toNat ≠ 4294967295 :=
        fun heq => lastFreeRam_ne_minusOne P _ (UInt32.toNat_inj.mp heq)
      rw [hnext, UInt32.lt_iff_toNat_lt] at hroom
      exact hroom (show _ < 4294967295 by omega)

theorem heapPtr_of_run {incrs : List Int32}
    (hrun : Transition.run (System.step P) System.init incrs = some s) : s.heap.heapPtr ≠ -1 :=
  Transition.invariant_of_steps (fun _ _ _ hptr hstep => heapPtr_of_step hptr hstep)
    (by decide : System.init.heap.heapPtr ≠ -1) hrun

/-! ## Calls -/

/-- A call that finds a null pointer hands out nothing. -/
theorem not_serves_of_null (hnull : h.pointer P = 0) : ¬ h.Serves P incr := by
  rintro ⟨p, h', hcall, hp⟩
  unfold sbrkR at hcall
  split at hcall
  · exact hp (Prod.mk.inj (Option.some.inj hcall)).1.symm
  · rw [sbrkLoop, if_pos hnull] at hcall
    exact hp (Prod.mk.inj (Option.some.inj hcall)).1.symm

/-- A memory space that takes the increment is not passed over. -/
theorem serves_of_accepts (hptr : h.heapPtr ≠ -1) (hincr : 0 ≤ incr) {k : Nat}
    (hpointers : ∀ i ≤ k, (h.next i).pointer P ≠ 0)
    (haccept : (h.next k).Accepts P incr.toUInt32) : h.Serves P incr := by
  obtain ⟨⟨p, h'⟩, hcall⟩ := Option.isSome_iff_exists.mp (sbrkR_isSome P h incr)
  refine ⟨p, h', hcall, ?_⟩
  unfold sbrkR at hcall
  rw [if_neg (Int32.not_lt.mpr hincr)] at hcall
  obtain ⟨j, hbefore, ⟨hnull, -, -⟩ | ⟨-, rfl, -⟩⟩ := sbrkLoop_cases hcall
  · rcases Nat.lt_or_ge k j with hlt | hge
    · exact absurd (hbefore k hlt).2 haccept.2
    · exact absurd hnull (hpointers j hge)
  · exact pointer_next_ne_minusOne hptr j

/-- The increment that makes the sum zero. -/
theorem exists_wrap {p : UInt32} (hp : 2 ^ 31 < p.toNat) :
    ∃ incr : Int32, 0 ≤ incr ∧ p + incr.toUInt32 = 0 := by
  have hlt := p.toNat_lt
  have hneg : (-p).toNat = 4294967296 - p.toNat := by
    rw [UInt32.toNat_neg, UInt32.size]
    exact Nat.mod_eq_of_lt (by omega)
  have hnonneg : (0 : Int) ≤ (-p).toBitVec.toInt := by
    rw [BitVec.toInt_eq_toNat_of_lt (show 2 * (-p).toNat < 2 ^ 32 by omega)]
    exact Int.natCast_nonneg _
  exact ⟨(-p).toInt32, Int32.le_iff_toInt_le.mpr hnonneg, UInt32.add_right_neg p⟩

/-- With room, some request is served. -/
theorem Heap.HasRoom.serves (hroom : h.HasRoom P) (hptr : h.heapPtr ≠ -1) :
    ∃ incr, h.Serves P incr := by
  obtain ⟨k, hpointers, hle | hhigh⟩ := hroom
  · have haccept : (h.next k).Accepts P (0 : Int32).toUInt32 := by
      refine ⟨hpointers k (Nat.le_refl k), ?_⟩
      have hzero : (0 : Int32).toUInt32 = 0 := rfl
      rw [hzero, UInt32.add_zero]
      exact UInt32.not_lt.mpr hle
    exact ⟨0, serves_of_accepts hptr (by decide) hpointers haccept⟩
  · obtain ⟨incr, hincr, hsum⟩ := exists_wrap hhigh
    have haccept : (h.next k).Accepts P incr.toUInt32 := by
      refine ⟨hpointers k (Nat.le_refl k), ?_⟩
      rw [hsum]
      exact UInt32.not_lt_zero
    exact ⟨incr, serves_of_accepts hptr hincr hpointers haccept⟩

/-- A request is only served where there is room. -/
theorem Heap.Serves.hasRoom (hserves : h.Serves P incr) : h.HasRoom P := by
  obtain ⟨p, h', hcall, hp⟩ := hserves
  unfold sbrkR at hcall
  split at hcall
  · exact absurd (Prod.mk.inj (Option.some.inj hcall)).1.symm hp
  · rename_i hneg
    obtain ⟨k, hbefore, ⟨-, rfl, -⟩ | ⟨⟨hne, hle⟩, -, -⟩⟩ := sbrkLoop_cases hcall
    · exact absurd rfl hp
    · refine ⟨k, fun i hi => ?_, ?_⟩
      · rcases Nat.eq_or_lt_of_le hi with rfl | hlt
        · exact hne
        · exact (hbefore i hlt).1
      · -- a sum that does not wrap is not below the pointer
        rw [UInt32.lt_iff_toNat_lt, UInt32.toNat_add] at hle
        rw [UInt32.le_iff_toNat_le]
        have hnonneg : 0 ≤ incr := Int32.not_lt.mp hneg
        have hsize : incr.toUInt32.toNat = incr.toInt.toNat := Int32.toNat_toUInt32_of_le hnonneg
        have hmax := incr.toInt_lt
        have hlt := ((h.next k).pointer P).toNat_lt
        omega

/-- **A refused request.**  When `_sbrk_r` returns -1, what it would have served before the call it
still serves afterwards exactly if the increment was negative, or if there was no room for any
request. -/
theorem refused_iff (P : Spaces) {incrs : List Int32} {s : System}
    (hrun : Transition.run (System.step P) System.init incrs = some s) {incr : Int32} {h' : Heap}
    (hrefused : sbrkR P s.heap incr = some (-1, h')) :
    (∀ incr', s.heap.Serves P incr' → h'.Serves P incr') ↔
      incr < 0 ∨ ¬ s.heap.HasRoom P := by
  have hptr := heapPtr_of_run hrun
  constructor
  · intro hsame
    by_cases hneg : incr < 0
    · exact .inl hneg
    · refine .inr fun hroom => ?_
      obtain ⟨incr', hserves⟩ := hroom.serves hptr
      rw [sbrkR, if_neg hneg] at hrefused
      obtain ⟨k, -, ⟨hnull, -, rfl⟩ | ⟨-, hminus, -⟩⟩ := sbrkLoop_cases hrefused
      · -- the pointer was null where the loop ended
        have hnext : s.heap.next k = ⟨0, s.heap.memIndex + k⟩ :=
          Heap.ext (heapPtr_of_pointer_eq hnull) (Heap.memIndex_next s.heap k)
        exact not_serves_of_null (hnext ▸ hnull) (hsame incr' hserves)
      · exact pointer_next_ne_minusOne hptr k hminus.symm
  · rintro (hneg | hroom) incr' hserves
    · rw [sbrkR, if_pos hneg] at hrefused
      obtain ⟨-, rfl⟩ := Prod.mk.inj (Option.some.inj hrefused)
      exact hserves
    · exact absurd hserves.hasRoom hroom

theorem refused_iff_two_banks :
    (∀ incr', (⟨0, 0⟩ : Heap).Serves twoBanks incr' → (⟨0, 2⟩ : Heap).Serves twoBanks incr') ↔
      (0x10000000 : Int32) < 0 ∨ ¬ (⟨0, 0⟩ : Heap).HasRoom twoBanks :=
  @refused_iff twoBanks [] System.init rfl 0x10000000 ⟨0, 2⟩ rfl

/-- A request for more than the memory spaces have is the last one that is looked at. -/
theorem not_serves_after_refused :
    ¬ ∀ (P : Spaces) (incrs : List Int32) (s : System) (incr : Int32) (h' : Heap),
      Transition.run (System.step P) System.init incrs = some s →
      sbrkR P s.heap incr = some (-1, h') →
      ∀ incr', s.heap.Serves P incr' → h'.Serves P incr' := by
  intro hall
  have hbefore : (⟨0, 0⟩ : Heap).Serves twoBanks 4096 :=
    ⟨0x40000208, ⟨0x40001208, 0⟩, rfl, by decide⟩
  exact not_serves_of_null rfl
    (hall twoBanks [] System.init 0x10000000 ⟨0, 2⟩ rfl rfl 4096 hbefore)

end Newlib
