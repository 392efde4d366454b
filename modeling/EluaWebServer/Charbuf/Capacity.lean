import EluaWebServer.Charbuf.Slots
import EluaWebServer.Lib.Transition

/-!
# Capacity of a character buffer

Sequences of writes, reads and flushes on a buffer, with the elements that
were written and not read yet and where each of them was put.  A write is
faithful when it is refused exactly if the buffer is disabled or holds as many
unread elements as `buf_get_size` says.
-/

namespace Charbuf

open Memory

inductive Call where
  | write (data : Mem)
  | read
  | flush

/-- The buffer, the elements written and not read since, and whether every
write so far was refused exactly when it had to be. -/
structure Monitor where
  desc : BufDesc
  unread : List (Nat × List UInt8)
  faithful : Bool

/-- The buffer has no room for a further element. -/
def Monitor.mustRefuse (s : Monitor) : Bool :=
  s.desc.logsize = BUF_SIZE_NONE ∨ s.unread.length = bufGetSize s.desc

def step (s : Monitor) : Call → Option Monitor
  | .write data =>
      let (desc, status) := bufWrite s.desc data
      some ⟨desc,
        if status = .PLATFORM_OK then
          s.unread ++ [(s.desc.wptr, loadBytes data 0 s.desc.realDsize)] else s.unread,
        s.faithful && ((status = .PLATFORM_ERR : Bool) == s.mustRefuse)⟩
  | .read =>
      let (desc, status, _) := bufRead s.desc
      some { s with
        desc := desc, unread := if status = .PLATFORM_OK then s.unread.tail else s.unread }
  | .flush => some { s with desc := bufFlush s.desc, unread := [] }

/-- The sizes in the enumerations. -/
def Allowed (logsize logdsize : Nat) : Prop :=
  logsize ≤ BUF_SIZE_32768 ∧ logdsize ≤ BUF_DSIZE_U32

instance (logsize logdsize : Nat) : Decidable (Allowed logsize logdsize) :=
  inferInstanceAs (Decidable (_ ∧ _))

/-- After `buf_set` on an unused descriptor. -/
def Monitor.init (logsize logdsize : Nat) (allocated : Bool) (m : Mem) : Monitor :=
  ⟨(bufSet (.fresh m) logsize logdsize allocated).1, [], true⟩

/-- What holds of a buffer that does not lose elements. -/
structure Monitor.Ok (s : Monitor) : Prop where
  count_le : bufGetCount s.desc ≤ bufGetSize s.desc
  count_eq : bufGetCount s.desc = s.unread.length
  faithful : s.faithful = true
  kept : ∀ e ∈ s.unread, loadBytes s.desc.buf e.1 s.desc.realDsize = e.2
  apart : s.unread.Pairwise fun e f =>
    e.1 + s.desc.realDsize ≤ f.1 ∨ f.1 + s.desc.realDsize ≤ e.1

/-- A write finds the buffer disabled, or with fewer unread elements than
there are slots in a buffer of its size and at most 65536 bytes. -/
def CallOk (s : Monitor) : Call → Prop
  | .write _ =>
      s.desc.logsize = BUF_SIZE_NONE ∨
        s.unread.length < 2 ^ (min s.desc.logsize 16 - s.desc.logdsize)
  | _ => True

instance (s : Monitor) : (c : Call) → Decidable (CallOk s c)
  | .write _ => inferInstanceAs (Decidable (_ ∨ _))
  | .read => inferInstanceAs (Decidable True)
  | .flush => inferInstanceAs (Decidable True)

/-! ## The invariant -/

/-- The unread elements of an enabled buffer. -/
def Enabled (s : Monitor) : Prop :=
  ∃ r, Holding s.desc r s.unread ∧ s.desc.rptr = s.desc.realDsize * (r % s.desc.slots) ∧
    s.desc.count = s.unread.length ∧ s.faithful = true

/-- A disabled buffer stays empty. -/
def Disabled (s : Monitor) : Prop :=
  s.desc.logsize = BUF_SIZE_NONE ∧ s.desc.count = 0 ∧ s.unread = [] ∧ s.faithful = true

def Inv (s : Monitor) : Prop := Enabled s ∨ Disabled s

variable {s s' : Monitor}

theorem inv_init {logsize logdsize : Nat} (h : Allowed logsize logdsize) (allocated : Bool)
    (m : Mem) : Inv (Monitor.init logsize logdsize allocated m) := by
  obtain ⟨hsize, hdsize⟩ := h
  unfold BUF_SIZE_32768 at hsize
  unfold BUF_DSIZE_U32 at hdsize
  cases allocated with
  | false => exact .inr ⟨rfl, rfl, rfl, rfl⟩
  | true =>
      by_cases hnone : logsize + logdsize = BUF_SIZE_NONE
      · exact .inr ⟨hnone, rfl, rfl, rfl⟩
      · have hle : logsize + logdsize ≤ logdsize + 15 := by omega
        refine .inl ⟨0, Holding.nil ⟨hnone, Nat.le_add_left _ _, hdsize, hle⟩ rfl, ?_, rfl, rfl⟩
        rw [Nat.zero_mod, Nat.mul_zero]
        rfl

/-- Slots do not overlap. -/
theorem slot_apart (p : BufDesc) {i j : Nat} (hne : i ≠ j) :
    (p.slot i).1 + p.realDsize ≤ (p.slot j).1 ∨ (p.slot j).1 + p.realDsize ≤ (p.slot i).1 := by
  unfold BufDesc.slot
  rcases Nat.lt_or_gt_of_ne hne with hlt | hgt
  · left
    rw [← Nat.mul_succ]
    exact Nat.mul_le_mul_left _ hlt
  · right
    rw [← Nat.mul_succ]
    exact Nat.mul_le_mul_left _ hgt

theorem Inv.ok (h : Inv s) : s.Ok := by
  rcases h with ⟨r, hold, -, hcount, hfaithful⟩ | ⟨hnone, hcount, hunread, hfaithful⟩
  · have hslots := s.desc.slots_le
    have hroom := hold.room
    refine ⟨?_, hcount, hfaithful, fun e he => ?_, ?_⟩
    · rw [bufGetCount, bufGetSize, if_neg hold.sized.enabled]
      omega
    · obtain ⟨q, rfl, -, -⟩ := hold.holds.mem he
      rfl
    · exact hold.holds.pairwise hold.room fun p q hne => slot_apart s.desc hne
  · refine ⟨?_, ?_, hfaithful, ?_, ?_⟩
    · rw [bufGetCount, hcount]
      exact Nat.zero_le _
    · rw [bufGetCount, hcount, hunread]
      rfl
    · rw [hunread]
      exact fun e he => absurd he List.not_mem_nil
    · rw [hunread]
      exact .nil

theorem inv_write (h : Inv s) (data : Mem) (hok : CallOk s (.write data))
    (hstep : step s (.write data) = some s') : Inv s' := by
  simp only [step, Option.some.injEq] at hstep
  subst hstep
  rcases h with ⟨r, hold, hrptr, hcount, hfaithful⟩ | ⟨hnone, hcount, hunread, hfaithful⟩
  · have hroom : s.unread.length < s.desc.slots := hok.resolve_left hold.sized.enabled
    have hslots := s.desc.slots_le
    obtain ⟨p', hwrite, hold', hsize, hdsize, hrptr', hcount'⟩ :=
      hold.bufWrite (Nat.le_of_eq hcount) hroom data
    have hrefuse : s.mustRefuse = false := by
      have hne : s.unread.length ≠ s.desc.realSize := by omega
      simp [Monitor.mustRefuse, hold.sized.enabled, bufGetSize, hne]
    rw [hwrite]
    refine .inl ⟨r, hold', ?_, ?_, ?_⟩
    · simp only [hrptr', hrptr, BufDesc.realDsize, BufDesc.slots, hsize, hdsize]
    · simp only [hcount', hcount, if_true, List.length_append, List.length_singleton]
    · rw [hfaithful, hrefuse]
      rfl
  · have hwrite : bufWrite s.desc data = (s.desc, .PLATFORM_ERR) := by
      rw [bufWrite, if_pos hnone]
    have hrefuse : s.mustRefuse = true := by
      simp [Monitor.mustRefuse, hnone]
    rw [hwrite]
    refine .inr ⟨hnone, hcount, hunread, ?_⟩
    rw [hfaithful, hrefuse]
    rfl

theorem inv_read (h : Inv s) (hstep : step s .read = some s') : Inv s' := by
  simp only [step, Option.some.injEq] at hstep
  subst hstep
  by_cases hempty : readEmpty s.desc = true
  · rw [bufRead, if_pos hempty]
    exact h
  · simp only [bufRead, if_neg hempty, if_true]
    rcases h with ⟨r, hold, hrptr, hcount, hfaithful⟩ | ⟨hnone, -⟩
    · cases hunread : s.unread with
      | nil =>
          rw [hunread] at hcount
          exact absurd (by simp [readEmpty, hcount]) hempty
      | cons e rest =>
          rw [hunread] at hold hcount
          rw [List.length_cons] at hcount
          have hptr : s.desc.modIncr s.desc.rptr = s.desc.realDsize * ((r + 1) % s.desc.slots) := by
            rw [hrptr]
            exact hold.sized.modIncr_slot r
          refine .inl ⟨r + 1, ?_, hptr, count_readDecrement hcount, hfaithful⟩
          exact ⟨hold.sized, hold.tail.wptr, hold.tail.holds, hold.tail.room⟩
    · exact absurd (by simp [readEmpty, hnone]) hempty

theorem inv_flush (h : Inv s) (hstep : step s .flush = some s') : Inv s' := by
  simp only [step, Option.some.injEq] at hstep
  subst hstep
  rcases h with ⟨r, hold, -, -, hfaithful⟩ | ⟨hnone, -, -, hfaithful⟩
  · refine .inl ⟨0, Holding.nil hold.sized rfl, ?_, rfl, hfaithful⟩
    rw [Nat.zero_mod, Nat.mul_zero]
    rfl
  · exact .inr ⟨hnone, rfl, rfl, hfaithful⟩

theorem inv_step {c : Call} (h : Inv s) (hok : CallOk s c) (hstep : step s c = some s') :
    Inv s' := by
  cases c with
  | write data => exact inv_write h data hok hstep
  | read => exact inv_read h hstep
  | flush => exact inv_flush h hstep

/-- **Capacity.**  A buffer that is never written to when it is full keeps its
count within its size, refuses writes exactly when it is disabled, and keeps
every element until it is read. -/
theorem buf_capacity {logsize logdsize : Nat} (hsize : Allowed logsize logdsize)
    {allocated : Bool} {m : Mem} {calls : List Call}
    (hok : Transition.Conforming step CallOk (Monitor.init logsize logdsize allocated m) calls)
    (hrun : Transition.run step (Monitor.init logsize logdsize allocated m) calls = some s) :
    s.Ok :=
  (Transition.invariant_of_run (fun _ _ _ => inv_step) (inv_init hsize allocated m)
    hok hrun).ok

/-- Two elements of two bytes, filled, read and filled again. -/
theorem buf_capacity_two_elements :
    ∃ s, Transition.run step (Monitor.init 1 1 true ⟨fun _ => 0⟩)
        [.write ⟨fun _ => 1⟩, .write ⟨fun _ => 2⟩, .read, .write ⟨fun _ => 3⟩] = some s ∧ s.Ok :=
  ⟨_, rfl, @buf_capacity _ 1 1 (by decide) true ⟨fun _ => 0⟩
    [.write ⟨fun _ => 1⟩, .write ⟨fun _ => 2⟩, .read, .write ⟨fun _ => 3⟩] (by decide) rfl⟩

/-- A third element is accepted in a buffer of two. -/
theorem buf_capacity_exceeded :
    ¬ ∀ (logsize logdsize : Nat), Allowed logsize logdsize →
      ∀ (allocated : Bool) (m : Mem) (calls : List Call) (s : Monitor),
        Transition.run step (Monitor.init logsize logdsize allocated m) calls = some s → s.Ok := by
  intro h
  have hok := h 1 0 (by decide) true ⟨fun _ => 0⟩
    [.write ⟨fun _ => 1⟩, .write ⟨fun _ => 2⟩, .write ⟨fun _ => 3⟩] _ rfl
  exact absurd hok.count_le (by decide)

end Charbuf
