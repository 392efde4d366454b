import EluaWebServer.Lib.Transition
import Mathlib.Data.List.Pairwise
import Mathlib.Algebra.Ring.Nat

/-!
# Memory for the allocators

`_sbrk_r` hands out the memory spaces of the platform one after the other, from their first
address on.  Pointers have 32 bits, the null pointer is 0, and `-1` says that there is no
memory.  The pointer is moved by 32-bit additions, which the code does not check.
-/

namespace Newlib

def MIN_ALIGN : UInt32 := 8
def MIN_ALIGN_SHIFT : UInt32 := 3

/-- A memory space, from `MEM_START_ADDRESS` to `MEM_END_ADDRESS`, its last byte. -/
structure Space where
  first : UInt32
  last : UInt32

/-- An address of a memory space. -/
def Space.Mem (m : Space) (a : Nat) : Prop := m.first.toNat ≤ a ∧ a ≤ m.last.toNat

/-- `MEM_START_ADDRESS` and `MEM_END_ADDRESS`. -/
structure Spaces where
  spaces : List Space

/-- The memory spaces of a platform have no addresses in common. -/
structure Platform extends Spaces where
  disjoint : spaces.Pairwise fun m m' => ∀ a, m.Mem a → ¬ m'.Mem a

instance : Coe Platform Spaces := ⟨Platform.toSpaces⟩

/-- `heap_ptr` and `mem_index`. -/
@[ext]
structure Heap where
  heapPtr : UInt32
  memIndex : Nat
  deriving DecidableEq

section

variable (P : Spaces)

def platformGetFirstFreeRam (id : Nat) : UInt32 :=
  match P.spaces[id]? with
  | none => 0
  | some m =>
      let p := m.first
      if p &&& (MIN_ALIGN - 1) ≠ 0 then ((p >>> MIN_ALIGN_SHIFT) + 1) <<< MIN_ALIGN_SHIFT else p

def platformGetLastFreeRam (id : Nat) : UInt32 :=
  match P.spaces[id]? with
  | none => 0
  | some m =>
      let p := m.last
      if p &&& (MIN_ALIGN - 1) ≠ 0 then ((p >>> MIN_ALIGN_SHIFT) - 1) <<< MIN_ALIGN_SHIFT else p

/-- The pointer that a round of the loop starts from. -/
def Heap.pointer (h : Heap) : UInt32 :=
  if h.heapPtr = 0 then platformGetFirstFreeRam P h.memIndex else h.heapPtr

/-- The loop of `_sbrk_r`, for at most `n` rounds. -/
def sbrkLoop (incr : UInt32) : Nat → Heap → Option (UInt32 × Heap)
  | 0, _ => none
  | n + 1, h =>
      let p := h.pointer P
      if p = 0 then some (-1, { h with heapPtr := 0 })
      -- Do we have space in the current memory space?
      else if platformGetLastFreeRam P h.memIndex < p + incr then
        sbrkLoop incr n ⟨0, h.memIndex + 1⟩
      else some (p, { h with heapPtr := p + incr })

/-- There is one round for every memory space that is left, and two more. -/
def sbrkR (h : Heap) (incr : Int32) : Option (UInt32 × Heap) :=
  if incr < 0 then some (-1, h)
  else sbrkLoop P incr.toUInt32 (P.spaces.length - h.memIndex + 2) h

end

/-- The memory that a call has handed out. -/
structure Area where
  ptr : UInt32
  size : Nat

def Area.Mem (r : Area) (a : Nat) : Prop := r.ptr.toNat ≤ a ∧ a < r.ptr.toNat + r.size

/-- The allocator, with what its successful calls have handed out, the last one first. -/
structure System where
  heap : Heap
  areas : List Area

namespace System

variable (P : Spaces)

def init : System := ⟨⟨0, 0⟩, []⟩

def step (s : System) (incr : Int32) : Option System :=
  (sbrkR P s.heap incr).map fun r =>
    ⟨r.2, if r.1 = -1 then s.areas else ⟨r.1, incr.toInt.toNat⟩ :: s.areas⟩

/-- Every area lies in one memory space, and no two of them have an address in common. -/
def Disjoint (s : System) : Prop :=
  (∀ r ∈ s.areas, ∃ m ∈ P.spaces, ∀ a, r.Mem a → m.Mem a) ∧
    s.areas.Pairwise fun r r' => ∀ a, r.Mem a → ¬ r'.Mem a

/-! ## When the addition does not wrap -/

end System

section

variable (P : Spaces) (h : Heap) (incr : UInt32)

/-- The state of the loop after `k` rounds. -/
def Heap.next (k : Nat) : Heap := if k = 0 then h else ⟨0, h.memIndex + k⟩

/-- A round that goes on to the next memory space. -/
def Heap.Rejects : Prop :=
  h.pointer P ≠ 0 ∧ platformGetLastFreeRam P h.memIndex < h.pointer P + incr

/-- A round that finds memory. -/
def Heap.Accepts : Prop :=
  h.pointer P ≠ 0 ∧ ¬ platformGetLastFreeRam P h.memIndex < h.pointer P + incr

instance : Decidable (h.Rejects P incr) := inferInstanceAs (Decidable (_ ∧ _))

instance : Decidable (h.Accepts P incr) := inferInstanceAs (Decidable (_ ∧ _))

/-- The end of the memory space does not become a high address when it is aligned. -/
def Spaces.EndsHigh (id : Nat) : Prop := ∀ m ∈ P.spaces[id]?, 8 ≤ m.last

instance (id : Nat) : Decidable (P.EndsHigh id) :=
  inferInstanceAs (Decidable (∀ m ∈ P.spaces[id]?, 8 ≤ m.last))

end

/-- In the first memory space that a call accepts, the pointer can be moved by the increment
within 32 bits, and the end of the space is no address below 8. -/
def System.StepOk (P : Spaces) (s : System) (incr : Int32) : Prop :=
  0 < incr → ∀ k ≤ P.spaces.length,
    (∀ i < k, (s.heap.next i).Rejects P incr.toUInt32) →
    (s.heap.next k).Accepts P incr.toUInt32 →
    ((s.heap.next k).pointer P).toNat + incr.toUInt32.toNat < 2 ^ 32 ∧
      P.EndsHigh (s.heap.next k).memIndex

instance (P : Spaces) (s : System) (incr : Int32) : Decidable (s.StepOk P incr) :=
  inferInstanceAs (Decidable (_ → _))

/-! ## The loop -/

variable {P : Spaces} {h h' : Heap} {incr p : UInt32}

theorem Heap.next_next (h : Heap) (k : Nat) :
    Heap.next ⟨0, h.memIndex + 1⟩ k = h.next (k + 1) := by
  unfold Heap.next
  rw [if_neg (Nat.succ_ne_zero k)]
  split
  · rename_i hk
    rw [hk]
  · rw [Nat.add_assoc, Nat.add_comm 1]

theorem Heap.memIndex_next (h : Heap) (k : Nat) : (h.next k).memIndex = h.memIndex + k := by
  unfold Heap.next
  split
  · rename_i hk
    rw [hk, Nat.add_zero]
  · rfl

theorem firstFreeRam_of_le {id : Nat} (hid : P.spaces.length ≤ id) :
    platformGetFirstFreeRam P id = 0 := by
  rw [platformGetFirstFreeRam, List.getElem?_eq_none hid]

theorem lt_of_pointer_ne {id : Nat} (hne : Heap.pointer P ⟨0, id⟩ ≠ 0) : id < P.spaces.length := by
  by_contra hge
  exact hne (firstFreeRam_of_le (Nat.le_of_not_lt hge))

theorem heapPtr_of_pointer_eq (hnull : h.pointer P = 0) : h.heapPtr = 0 := by
  by_contra hne
  rw [Heap.pointer, if_neg hne] at hnull
  exact hne hnull

/-- From a null pointer, there is one round for every memory space that is left. -/
theorem sbrkLoop_isSome_of_null (incr : UInt32) (id n : Nat) (hn : P.spaces.length - id < n) :
    (sbrkLoop P incr n ⟨0, id⟩).isSome := by
  induction n generalizing id with
  | zero => exact absurd hn (Nat.not_lt_zero _)
  | succ n ih =>
      rw [sbrkLoop]
      split
      · rfl
      · rename_i hne
        have hid := lt_of_pointer_ne hne
        split
        · exact ih (id + 1) (by omega)
        · rfl

/-- The loop ends. -/
theorem sbrkR_isSome (P : Spaces) (h : Heap) (incr : Int32) : (sbrkR P h incr).isSome := by
  unfold sbrkR
  split
  · rfl
  · rw [sbrkLoop]
    split
    · rfl
    · split
      · exact sbrkLoop_isSome_of_null _ _ _ (by omega)
      · rfl

/-- **What the loop does.**  It passes over the memory spaces without room, up to one that has
no first address or has room. -/
theorem sbrkLoop_cases {n : Nat} (hrun : sbrkLoop P incr n h = some (p, h')) :
    ∃ k, (∀ i < k, (h.next i).Rejects P incr) ∧
      ((h.next k).pointer P = 0 ∧ p = -1 ∧ h' = ⟨0, h.memIndex + k⟩ ∨
        (h.next k).Accepts P incr ∧ p = (h.next k).pointer P ∧
          h' = ⟨p + incr, h.memIndex + k⟩) := by
  induction n generalizing h with
  | zero => cases hrun
  | succ n ih =>
      rw [sbrkLoop] at hrun
      split at hrun
      · rename_i hnull
        obtain ⟨rfl, rfl⟩ := Prod.mk.inj (Option.some.inj hrun)
        exact ⟨0, fun i hi => absurd hi (Nat.not_lt_zero i), .inl ⟨hnull, rfl, rfl⟩⟩
      · rename_i hne
        split at hrun
        · rename_i hreject
          obtain ⟨k, hbefore, hend⟩ := ih hrun
          simp only [Heap.next_next] at hbefore hend
          rw [Nat.add_assoc, Nat.add_comm 1] at hend
          refine ⟨k + 1, fun i hi => ?_, hend⟩
          cases i with
          | zero => exact ⟨hne, hreject⟩
          | succ i => exact hbefore i (Nat.lt_of_succ_lt_succ hi)
        · rename_i haccept
          obtain ⟨rfl, rfl⟩ := Prod.mk.inj (Option.some.inj hrun)
          exact ⟨0, fun i hi => absurd hi (Nat.not_lt_zero i), .inr ⟨⟨hne, haccept⟩, rfl, rfl⟩⟩

/-! ## Aligned addresses -/

theorem firstFreeRam_ge {id : Nat} {m : Space} (hm : P.spaces[id]? = some m)
    (hne : platformGetFirstFreeRam P id ≠ 0) :
    m.first.toNat ≤ (platformGetFirstFreeRam P id).toNat := by
  have hlt := m.first.toNat_lt
  unfold platformGetFirstFreeRam at hne ⊢
  rw [hm] at hne ⊢
  dsimp only at hne ⊢
  split
  · rename_i hunaligned
    rw [if_pos hunaligned, Ne, ← UInt32.toNat_inj] at hne
    simp only [UInt32.toNat_shiftLeft, UInt32.toNat_add, UInt32.toNat_shiftRight, MIN_ALIGN_SHIFT,
      UInt32.reduceToNat, Nat.reduceMod, Nat.shiftLeft_eq, Nat.shiftRight_eq_div_pow,
      Nat.reducePow] at hne ⊢
    omega
  · exact Nat.le_refl _

theorem lastFreeRam_le {id : Nat} {m : Space} (hm : P.spaces[id]? = some m) (hend : 8 ≤ m.last) :
    (platformGetLastFreeRam P id).toNat ≤ m.last.toNat := by
  have hlt := m.last.toNat_lt
  have hge : 8 ≤ m.last.toNat := hend
  unfold platformGetLastFreeRam
  rw [hm]
  dsimp only
  split
  · simp only [UInt32.toNat_shiftLeft, UInt32.toNat_sub, UInt32.toNat_shiftRight, MIN_ALIGN_SHIFT,
      UInt32.reduceToNat, Nat.reduceMod, Nat.shiftLeft_eq, Nat.shiftRight_eq_div_pow, Nat.reducePow]
    omega
  · exact Nat.le_refl _

/-! ## The invariant -/

namespace System

/-- The memory handed out lies below the pointer, or in a memory space that is behind it. -/
structure Inv (P : Spaces) (s : System) : Prop where
  inside : ∀ r ∈ s.areas, ∃ i m, P.spaces[i]? = some m ∧ (∀ a, r.Mem a → m.Mem a) ∧
    (i < s.heap.memIndex ∨
      i = s.heap.memIndex ∧ s.heap.heapPtr ≠ 0 ∧ r.ptr.toNat + r.size ≤ s.heap.heapPtr.toNat)
  pointer : s.heap.heapPtr ≠ 0 →
    ∃ m, P.spaces[s.heap.memIndex]? = some m ∧ m.first.toNat ≤ s.heap.heapPtr.toNat
  apart : s.areas.Pairwise fun r r' => ∀ a, r.Mem a → ¬ r'.Mem a

variable {s s' : System}

theorem inv_init (P : Spaces) : Inv P init :=
  ⟨fun _ hr => absurd hr List.not_mem_nil, fun hne => absurd rfl hne, .nil⟩

theorem Inv.disjoint (h : s.Inv P) : s.Disjoint P := by
  refine ⟨fun r hr => ?_, h.apart⟩
  obtain ⟨i, m, hm, hinside, -⟩ := h.inside r hr
  exact ⟨m, List.mem_of_getElem? hm, hinside⟩

/-- Going on to a later memory space keeps the invariant. -/
theorem Inv.next (h : s.Inv P) (k : Nat) : Inv P ⟨s.heap.next k, s.areas⟩ := by
  cases k with
  | zero => exact h
  | succ k =>
      refine ⟨fun r hr => ?_, fun hne => absurd rfl hne, h.apart⟩
      obtain ⟨i, m, hm, hinside, hbelow⟩ := h.inside r hr
      refine ⟨i, m, hm, hinside, .inl ?_⟩
      show i < s.heap.memIndex + (k + 1)
      rcases hbelow with hbelow | ⟨rfl, -⟩ <;> omega

theorem Inv.tail {r : Area} {rs : List Area} (hinv : Inv P ⟨h, r :: rs⟩) : Inv P ⟨h, rs⟩ :=
  ⟨fun r' hr' => hinv.inside r' (List.mem_cons_of_mem r hr'), hinv.pointer,
    (List.pairwise_cons.mp hinv.apart).2⟩

/-- The memory space that a round with a pointer is in. -/
theorem Inv.space (h : s.Inv P) (hne : s.heap.pointer P ≠ 0) :
    ∃ m, P.spaces[s.heap.memIndex]? = some m ∧
      m.first.toNat ≤ (s.heap.pointer P).toNat := by
  unfold Heap.pointer at hne ⊢
  split
  · rename_i hnull
    rw [if_pos hnull] at hne
    cases hm : P.spaces[s.heap.memIndex]? with
    | none => exact absurd (firstFreeRam_of_le (List.getElem?_eq_none_iff.mp hm)) hne
    | some m => exact ⟨m, rfl, firstFreeRam_ge hm hne⟩
  · rename_i hptr
    exact h.pointer hptr

/-- Every round that goes on is in a memory space that exists. -/
theorem Inv.le_of_rejects (h : s.Inv P) {k : Nat}
    (hbefore : ∀ i < k, (s.heap.next i).Rejects P incr) : k ≤ P.spaces.length := by
  cases k with
  | zero => exact Nat.zero_le _
  | succ k =>
      obtain ⟨m, hm, -⟩ := (h.next k).space (hbefore k (Nat.lt_succ_self k)).1
      obtain ⟨hlt, -⟩ := List.getElem?_eq_some_iff.mp hm
      rw [Heap.memIndex_next] at hlt
      omega

/-- What lies in two memory spaces has no address in common. -/
theorem apart_of_lt {P : Platform} {i j : Nat} {m m' : Space} (hi : P.spaces[i]? = some m)
    (hj : P.spaces[j]? = some m') (hij : i < j) (a : Nat) (ha : m.Mem a) : ¬ m'.Mem a := by
  obtain ⟨hilt, rfl⟩ := List.getElem?_eq_some_iff.mp hi
  obtain ⟨hjlt, rfl⟩ := List.getElem?_eq_some_iff.mp hj
  exact List.pairwise_iff_getElem.mp P.disjoint i j hilt hjlt hij a ha

/-- **Memory from the current space.**  An addition that does not wrap keeps the invariant, with
the new area. -/
theorem Inv.accept {P : Platform} (h : s.Inv P) (haccept : s.heap.Accepts P incr)
    (hadd : 0 < incr.toNat → (s.heap.pointer P).toNat + incr.toNat < 2 ^ 32 ∧
      P.EndsHigh s.heap.memIndex) :
    Inv P ⟨⟨s.heap.pointer P + incr, s.heap.memIndex⟩,
      ⟨s.heap.pointer P, incr.toNat⟩ :: s.areas⟩ := by
  obtain ⟨hne, hroom⟩ := haccept
  obtain ⟨m, hm, hfirst⟩ := h.space hne
  have hpos : 0 < (s.heap.pointer P).toNat :=
    Nat.pos_of_ne_zero fun hzero => hne (UInt32.toNat_inj.mp hzero)
  have hlt := (s.heap.pointer P).toNat_lt
  have hsum : (s.heap.pointer P + incr).toNat = (s.heap.pointer P).toNat + incr.toNat := by
    rw [UInt32.toNat_add]
    refine Nat.mod_eq_of_lt ?_
    rcases Nat.eq_zero_or_pos incr.toNat with hzero | hincr
    · omega
    · exact (hadd hincr).1
  have hnext : s.heap.pointer P + incr ≠ 0 := by
    intro hzero
    rw [hzero] at hsum
    simp only [UInt32.toNat_zero] at hsum
    omega
  -- the areas of this memory space end where the round starts
  have hold : ∀ r ∈ s.areas, ∃ i m', P.spaces[i]? = some m' ∧ (∀ a, r.Mem a → m'.Mem a) ∧
      (i < s.heap.memIndex ∨
        i = s.heap.memIndex ∧ r.ptr.toNat + r.size ≤ (s.heap.pointer P).toNat) := by
    intro r hr
    obtain ⟨i, m', hm', hinside, hbelow⟩ := h.inside r hr
    refine ⟨i, m', hm', hinside, hbelow.imp_right ?_⟩
    rintro ⟨rfl, hptr, hend⟩
    rw [Heap.pointer, if_neg hptr]
    exact ⟨rfl, hend⟩
  have hnew : ∀ a, Area.Mem ⟨s.heap.pointer P, incr.toNat⟩ a → m.Mem a := by
    rintro a ⟨hge, hend⟩
    dsimp only at hge hend
    have hincr : 0 < incr.toNat := by omega
    have hlast := lastFreeRam_le hm ((hadd hincr).2 m hm)
    rw [UInt32.lt_iff_toNat_lt, hsum] at hroom
    exact ⟨by omega, by omega⟩
  refine ⟨?_, fun _ => ⟨m, hm, ?_⟩, List.pairwise_cons.mpr ⟨?_, h.apart⟩⟩
  · intro r hr
    rcases List.mem_cons.mp hr with rfl | hr
    · exact ⟨_, m, hm, hnew, .inr ⟨rfl, hnext, Nat.le_of_eq hsum.symm⟩⟩
    · obtain ⟨i, m', hm', hinside, hbelow⟩ := hold r hr
      refine ⟨i, m', hm', hinside, hbelow.imp_right ?_⟩
      rintro ⟨rfl, hend⟩
      refine ⟨rfl, hnext, ?_⟩
      show _ ≤ (s.heap.pointer P + incr).toNat
      omega
  · show _ ≤ (s.heap.pointer P + incr).toNat
    omega
  · intro r hr a ha hra
    obtain ⟨i, m', hm', hinside, hbelow⟩ := hold r hr
    rcases hbelow with hlt | ⟨rfl, hend⟩
    · exact apart_of_lt hm' hm hlt a (hinside a hra) (hnew a ha)
    · have hge := ha.1
      have hbefore := hra.2
      dsimp only at hge
      omega

/-- A call whose addition does not wrap keeps the invariant. -/
theorem Inv.step {P : Platform} (h : s.Inv P) {incr : Int32} (hok : s.StepOk P incr)
    (hstep : s.step P incr = some s') : s'.Inv P := by
  obtain ⟨⟨p, h'⟩, hcall, rfl⟩ := Option.map_eq_some_iff.mp hstep
  unfold sbrkR at hcall
  split at hcall
  · obtain ⟨rfl, rfl⟩ := Prod.mk.inj (Option.some.inj hcall)
    exact h
  · rename_i hneg
    have hnonneg : 0 ≤ incr := Int32.not_lt.mp hneg
    have hsize : incr.toUInt32.toNat = incr.toInt.toNat := Int32.toNat_toUInt32_of_le hnonneg
    obtain ⟨k, hbefore, hend⟩ := sbrkLoop_cases hcall
    rcases hend with ⟨hnull, rfl, rfl⟩ | ⟨haccept, rfl, rfl⟩
    · -- no memory: the pointer was null when the loop ended
      have hheap : s.heap.next k = ⟨0, s.heap.memIndex + k⟩ :=
        Heap.ext (heapPtr_of_pointer_eq hnull) (Heap.memIndex_next s.heap k)
      rw [if_pos rfl]
      rw [← hheap]
      exact h.next k
    · have hadd : 0 < incr.toUInt32.toNat → _ := fun hpos =>
        hok (Int32.lt_iff_toInt_lt.mpr (Int.lt_toNat.mp (hsize ▸ hpos)))
          k (h.le_of_rejects hbefore) hbefore haccept
      have hnew := (h.next k).accept haccept hadd
      rw [← Heap.memIndex_next, ← hsize]
      split
      · exact hnew.tail
      · exact hnew

end System

/-! ## Runs -/

/-- **Disjoint memory.**  Every sequence of calls ends; when no addition wraps in the memory space
that has room, everything it hands out lies inside the memory spaces and is handed out once. -/
theorem sbrk_disjoint (P : Platform) {incrs : List Int32}
    (hok : Transition.Conforming (System.step P) (System.StepOk P) System.init incrs) :
    ∃ s, Transition.run (System.step P) System.init incrs = some s ∧ s.Disjoint P := by
  have hstep : ∀ (s : System) (incr : Int32), s.Inv P → s.StepOk P incr →
      ∃ s', s.step P incr = some s' ∧ s'.Inv P := by
    intro s incr hinv hincr
    have htotal : (s.step P incr).isSome := by
      rw [System.step, Option.isSome_map]
      exact sbrkR_isSome P s.heap incr
    obtain ⟨s', hs'⟩ := Option.isSome_iff_exists.mp htotal
    exact ⟨s', hs', hinv.step hincr hs'⟩
  obtain ⟨s, hrun, hinv⟩ := Transition.run_of_total hstep (System.inv_init P) hok
  exact ⟨s, hrun, hinv.disjoint⟩

/-- Internal memory, and a memory chip in the upper half of the addresses. -/
def twoBanks : Platform where
  spaces := [⟨0x40000204, 0x4000FFFF⟩, ⟨0xA0000000, 0xA1FFFFFF⟩]
  disjoint := by
    refine .cons (fun m hm => ?_) (.cons (fun m hm => absurd hm List.not_mem_nil) .nil)
    obtain rfl := List.mem_singleton.mp hm
    rintro a ⟨-, hlast⟩ ⟨hfirst, -⟩
    exact absurd (Nat.le_trans hfirst hlast) (by decide)

theorem sbrk_disjoint_two_banks :
    ∃ s, Transition.run (System.step twoBanks) System.init [4096, -4, 65536, 0, 0x1000000] =
        some s ∧ s.Disjoint twoBanks :=
  sbrk_disjoint twoBanks (by decide +kernel)

/-- The request does not fit in 32 bits above the second bank, so its end is a small address. -/
theorem sbrk_not_disjoint_wrap :
    ¬ ∀ (P : Platform) (incrs : List Int32) (s : System),
      Transition.run (System.step P) System.init incrs = some s → s.Disjoint P := by
  intro hall
  obtain ⟨hinside, -⟩ :=
    hall twoBanks [0x70000000] ⟨⟨0x10000000, 1⟩, [⟨0xA0000000, 0x70000000⟩]⟩ rfl
  obtain ⟨m, -, hm⟩ := hinside _ List.mem_cons_self
  have hend := (hm (2 ^ 32) ⟨by decide, by decide⟩).2
  exact absurd hend (Nat.not_le_of_lt m.last.toNat_lt)

end Newlib
