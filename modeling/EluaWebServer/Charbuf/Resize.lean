import EluaWebServer.Charbuf.Interrupts

/-!
# Changing the size of a character buffer

`buf_set` changes the size of a buffer in place, and leaves its pointers and its count as they
are when it finds memory.  They fit the new size when nothing that waits in the buffer wraps
around its end, or ends up behind it.
-/

namespace Charbuf

open Memory

/-- The buffer, its reader and its elements since `buf_set` or `buf_flush` was called last, and
the size that the buffer should have; `none` is for a buffer that should be disabled. -/
structure Session where
  sys : System
  requested : Option Nat

namespace Session

/-- `realloc` returns memory, the contents of which are not looked at here, or NULL. -/
inductive Action where
  | set (logsize : Nat) (realloc : Option Mem)
  | flush
  | io (a : System.Action)

/-- What `buf_set` makes of a descriptor. -/
def resized (p : BufDesc) (logsize logdsize : Nat) (realloc : Option Mem) : BufDesc :=
  (bufSet { p with buf := realloc.getD p.buf } logsize logdsize realloc.isSome).1

/-- The main program calls `buf_set` and `buf_flush` outside of `buf_read`.  The sum of the two
sizes is a byte. -/
def step (logdsize : Nat) (s : Session) : Action → Option Session
  | .set logsize realloc =>
      match s.sys.reader with
      | .idle =>
          if logsize + logdsize < 2 ^ 8 then
            let p := resized s.sys.desc logsize logdsize realloc
            some ⟨⟨p, .idle, System.contents p, []⟩,
              if realloc.isSome ∧ logsize ≠ BUF_SIZE_NONE then some logsize else none⟩
          else none
      | _ => none
  | .flush =>
      match s.sys.reader with
      | .idle => some { s with sys := ⟨bufFlush s.sys.desc, .idle, [], []⟩ }
      | _ => none
  | .io a => (s.sys.step a).map fun sys => { s with sys := sys }

/-- A descriptor that was never used. -/
def init (m : Mem) : Session := ⟨⟨.fresh m, .idle, [], []⟩, none⟩

/-- The size and the state of the buffer are those that were asked for, the pointers and the
count agree with them, and what is written is read in its order. -/
structure Consistent (s : Session) : Prop where
  reported : match s.requested with
    | none => bufIsEnabled s.sys.desc = false ∧ bufGetSize s.sys.desc = 0
    | some n => bufIsEnabled s.sys.desc = true ∧ bufGetSize s.sys.desc = 2 ^ n
  rptr : s.sys.desc.rptr < 2 ^ s.sys.desc.logsize ∧ s.sys.desc.realDsize ∣ s.sys.desc.rptr
  wptr : s.sys.desc.wptr < 2 ^ s.sys.desc.logsize ∧ s.sys.desc.realDsize ∣ s.sys.desc.wptr
  count_le : bufGetCount s.sys.desc ≤ bufGetSize s.sys.desc
  accepts : s.sys.full = false →
    ∀ data, (bufWrite s.sys.desc data).2 = .PLATFORM_OK ↔ bufIsEnabled s.sys.desc = true
  empty : s.sys.reader = .idle → (readEmpty s.sys.desc = true ↔ s.sys.written = s.sys.got)
  fifo : s.sys.Ok

/-! ## When the pointers fit the new size -/

/-- Memory is found: a buffer that is disabled has been emptied, with its pointers at 0; any other
has at most 32768 elements and 65536 bytes; one that
grows has nothing that wraps around its end; one that shrinks has its pointers and as many
elements inside of the new size. -/
def SetOk (p : BufDesc) (logsize logdsize : Nat) : Option Mem → Prop
  | none => True
  | some _ =>
      if logsize = BUF_SIZE_NONE then
        logdsize = BUF_DSIZE_U8 ∧ p.rptr = 0 ∧ p.wptr = 0 ∧ p.count = 0
      else
        logsize ≤ BUF_SIZE_32768 ∧ logsize + logdsize ≤ 16 ∧
          (p.logsize = logsize + logdsize ∨
            p.logsize < logsize + logdsize ∧ p.rptr + p.count * 2 ^ logdsize < 2 ^ p.logsize ∨
            logsize + logdsize < p.logsize ∧ p.rptr < 2 ^ (logsize + logdsize) ∧
              p.wptr < 2 ^ (logsize + logdsize) ∧ p.count ≤ 2 ^ logsize)

instance (p : BufDesc) (logsize logdsize : Nat) :
    (realloc : Option Mem) → Decidable (SetOk p logsize logdsize realloc)
  | none => inferInstanceAs (Decidable True)
  | some _ => inferInstanceAs (Decidable (ite _ _ _))

/-- `buf_set` is called when the pointers fit, and `buf_write` not with the buffer full. -/
def StepOk (logdsize : Nat) (s : Session) : Action → Prop
  | .set logsize realloc => SetOk s.sys.desc logsize logdsize realloc
  | .flush => True
  | .io a => s.sys.NotFull a

instance (logdsize : Nat) (s : Session) : (a : Action) → Decidable (StepOk logdsize s a)
  | .set _ _ => inferInstanceAs (Decidable (SetOk _ _ _ _))
  | .flush => inferInstanceAs (Decidable True)
  | .io _ => inferInstanceAs (Decidable (System.NotFull _ _))

/-! ## Pointers in the slots of a ring -/

/-- A buffer that is not being read holds what its pointers say. -/
theorem enabled_of_pointers {p : BufDesc} {i : Nat} (hsized : Sized p.logsize p.logdsize)
    (hsmall : p.logsize ≤ 16) (hi : i < p.slots) (hrptr : p.rptr = p.realDsize * i)
    (hcount : p.count ≤ p.slots) (hwptr : p.wptr = p.realDsize * ((i + p.count) % p.slots)) :
    ∃ unread, System.Enabled ⟨p, .idle, System.contents p, []⟩ i unread := by
  have hbytes : p.realDsize * p.slots = 2 ^ p.logsize := by
    rw [hsized.ring_bytes, Nat.min_eq_left hsmall]
  refine ⟨(List.range p.count).map fun k => p.slot ((i + k) % p.slots), ?_, ?_, ?_, hsmall, ?_,
    trivial⟩
  · refine ⟨hsized, ?_, Ring.holds_map_range _ _ _ _, ?_⟩
    · rw [List.length_map, List.length_range]
      exact hwptr
    · rw [List.length_map, List.length_range]
      exact hcount
  · rw [Nat.mod_eq_of_lt hi]
    exact hrptr
  · rw [List.length_map, List.length_range]
  · rw [List.nil_append, System.held, List.nil_append, List.map_map]
    refine List.map_congr_left fun k _ => ?_
    rw [hrptr, Nat.mul_comm k, ← Nat.mul_add, ← hbytes, Nat.mul_mod_mul_left]
    rfl

/-- The pointers of a ring of `n` slots fit one of `n'` slots. -/
theorem slots_fit {n n' i count : Nat} (hi : i < n) (hcount : count ≤ n)
    (hfit : n = n' ∨ n < n' ∧ i + count < n ∨
      n' ∣ n ∧ i < n' ∧ (i + count) % n < n' ∧ count ≤ n') :
    i < n' ∧ count ≤ n' ∧ (i + count) % n = (i + count) % n' := by
  rcases hfit with rfl | ⟨hgrow, hwrap⟩ | ⟨hdvd, hi', hw, hcount'⟩
  · exact ⟨hi, hcount, rfl⟩
  · refine ⟨by omega, by omega, ?_⟩
    rw [Nat.mod_eq_of_lt hwrap, Nat.mod_eq_of_lt (by omega)]
  · refine ⟨hi', hcount', ?_⟩
    rw [← Nat.mod_mod_of_dvd (i + count) hdvd, Nat.mod_eq_of_lt hw]

/-! ## The invariant -/

/-- The descriptor has the sizes that were asked for. -/
def Matches (logdsize : Nat) (s : Session) : Prop :=
  s.requested = none ∧ s.sys.desc.logsize = BUF_SIZE_NONE ∨
    ∃ n, s.requested = some n ∧ n ≠ BUF_SIZE_NONE ∧ s.sys.desc.logsize = n + logdsize ∧
      s.sys.desc.logdsize = logdsize

structure Inv (logdsize : Nat) (s : Session) : Prop where
  sys : s.sys.Inv
  sizes : s.Matches logdsize

variable {logdsize : Nat} {s s' : Session}

theorem inv_init (m : Mem) : (init m).Inv logdsize :=
  ⟨.inr ⟨rfl, rfl, rfl, rfl, rfl, rfl, .inl rfl⟩, .inl ⟨rfl, rfl⟩⟩

theorem sizes_bufWrite (p : BufDesc) (data : Mem) :
    (bufWrite p data).1.logsize = p.logsize ∧ (bufWrite p data).1.logdsize = p.logdsize := by
  unfold bufWrite
  split
  · exact ⟨rfl, rfl⟩
  · split <;> exact ⟨rfl, rfl⟩

/-- Writing and reading leave the sizes. -/
theorem sizes_of_step {t t' : System} {a : System.Action} (hstep : t.step a = some t') :
    t'.desc.logsize = t.desc.logsize ∧ t'.desc.logdsize = t.desc.logdsize := by
  cases a with
  | interrupt data =>
      obtain rfl := Option.some.inj hstep
      exact sizes_bufWrite t.desc data
  | read =>
      obtain rfl := Option.some.inj hstep
      unfold System.readStep
      split <;> exact ⟨rfl, rfl⟩

theorem Inv.io {a : System.Action} {sys : System} (h : s.Inv logdsize) (hok : s.sys.NotFull a)
    (hstep : s.sys.step a = some sys) : Inv logdsize { s with sys := sys } := by
  obtain ⟨hsize, hdsize⟩ := sizes_of_step hstep
  refine ⟨System.inv_step h.sys hok hstep, ?_⟩
  rcases h.sizes with ⟨hnone, hlog⟩ | ⟨n, hreq, hne, hlog, hlogd⟩
  · exact .inl ⟨hnone, hsize.trans hlog⟩
  · exact .inr ⟨n, hreq, hne, hsize.trans hlog, hdsize.trans hlogd⟩

/-- Emptying a buffer. -/
theorem Inv.flush (h : s.Inv logdsize) :
    Inv logdsize { s with sys := ⟨bufFlush s.sys.desc, .idle, [], []⟩ } := by
  refine ⟨?_, h.sizes⟩
  rcases h.sys with ⟨r, unread, hon⟩ | hoff
  · refine .inl ⟨0, [], Holding.nil hon.holding.sized rfl, ?_, rfl, hon.small, rfl, trivial⟩
    rw [Nat.zero_mod, Nat.mul_zero]
    rfl
  · exact .inr ⟨hoff.logsize, rfl, rfl, rfl, rfl, rfl, .inl rfl⟩

/-- A buffer for which no memory is found is disabled and empty. -/
theorem inv_unallocated (logsize : Nat) :
    Inv logdsize ⟨⟨resized s.sys.desc logsize logdsize none, .idle,
      System.contents (resized s.sys.desc logsize logdsize none), []⟩, none⟩ :=
  ⟨.inr ⟨rfl, rfl, rfl, rfl, rfl, rfl, .inl rfl⟩, .inl ⟨rfl, rfl⟩⟩

theorem Inv.logdsize_eq (h : s.Inv logdsize) (hon : s.sys.desc.logsize ≠ BUF_SIZE_NONE) :
    s.sys.desc.logdsize = logdsize := by
  rcases h.sizes with ⟨-, hnone⟩ | ⟨n, -, -, -, hd⟩
  · exact absurd hnone hon
  · exact hd

/-- The condition on the bytes, in slots. -/
theorem SetOk.slots {p : BufDesc} {logsize i : Nat} {m : Mem} (hne : logsize ≠ BUF_SIZE_NONE)
    (hsized : Sized p.logsize p.logdsize) (hsmall : p.logsize ≤ 16)
    (hrptr : p.rptr = p.realDsize * i)
    (hwptr : p.wptr = p.realDsize * ((i + p.count) % p.slots))
    (hok : SetOk p logsize p.logdsize (some m)) :
    p.slots = 2 ^ logsize ∨ p.slots < 2 ^ logsize ∧ i + p.count < p.slots ∨
      2 ^ logsize ∣ p.slots ∧ i < 2 ^ logsize ∧ (i + p.count) % p.slots < 2 ^ logsize ∧
        p.count ≤ 2 ^ logsize := by
  have hle := hsized.elem_le
  have hslots : p.slots = 2 ^ (p.logsize - p.logdsize) := by
    rw [BufDesc.slots, Nat.min_eq_left hsmall]
  have hbytes : p.realDsize * p.slots = 2 ^ p.logsize := by
    rw [hsized.ring_bytes, Nat.min_eq_left hsmall]
  have hnew : p.realDsize * 2 ^ logsize = 2 ^ (logsize + p.logdsize) := by
    rw [BufDesc.realDsize, Nat.add_comm, Nat.pow_add]
  unfold SetOk at hok
  rw [if_neg hne] at hok
  obtain ⟨-, -, hsame | ⟨hgrow, hwrap⟩ | ⟨hshrink, hr, hw, hcount⟩⟩ := hok
  · left
    rw [hslots, hsame, Nat.add_sub_cancel]
  · right; left
    refine ⟨?_, ?_⟩
    · rw [hslots]
      exact Nat.pow_lt_pow_right (by decide) (by omega)
    · refine Nat.lt_of_mul_lt_mul_left (a := p.realDsize) ?_
      rw [hbytes, Nat.mul_add, ← hrptr, Nat.mul_comm _ p.count]
      exact hwrap
  · right; right
    rw [hrptr, ← hnew] at hr
    rw [hwptr, ← hnew] at hw
    refine ⟨?_, Nat.lt_of_mul_lt_mul_left hr, Nat.lt_of_mul_lt_mul_left hw, hcount⟩
    rw [hslots]
    exact Nat.pow_dvd_pow 2 (by omega)

/-- **A new size.**  Pointers that fit the new size are consistent with it. -/
theorem Inv.set (hdsize : logdsize ≤ BUF_DSIZE_U32) (h : s.Inv logdsize)
    (hidle : s.sys.reader = .idle) {logsize : Nat} (hne : logsize ≠ BUF_SIZE_NONE) {m : Mem}
    (hok : SetOk s.sys.desc logsize logdsize (some m)) :
    System.Inv ⟨resized s.sys.desc logsize logdsize (some m), .idle,
      System.contents (resized s.sys.desc logsize logdsize (some m)), []⟩ := by
  have hbounds := hok
  unfold SetOk at hbounds
  rw [if_neg hne] at hbounds
  obtain ⟨hmost, hsmall, -⟩ := hbounds
  unfold BUF_DSIZE_U32 at hdsize
  unfold BUF_SIZE_32768 at hmost
  have hsized : Sized (logsize + logdsize) logdsize :=
    ⟨fun hzero => hne (Nat.eq_zero_of_add_eq_zero_right hzero), Nat.le_add_left _ _, hdsize,
      by omega⟩
  have hslots : BufDesc.slots (resized s.sys.desc logsize logdsize (some m)) = 2 ^ logsize := by
    rw [BufDesc.slots]
    change 2 ^ (min (logsize + logdsize) 16 - logdsize) = _
    rw [Nat.min_eq_left hsmall, Nat.add_sub_cancel]
  rcases h.sys with ⟨r, unread, hon⟩ | hoff
  · obtain rfl : s.sys.desc.logdsize = logdsize := h.logdsize_eq hon.holding.sized.enabled
    have hwptr := hon.holding.wptr
    simp only [hidle, System.held, List.length_nil, Nat.add_zero] at hwptr
    rw [← hon.count, ← Nat.mod_add_mod] at hwptr
    have hcount : s.sys.desc.count ≤ s.sys.desc.slots := hon.count ▸ hon.holding.room
    obtain ⟨hi, hle, hw⟩ := slots_fit (Nat.mod_lt r s.sys.desc.slots_pos) hcount
      (hok.slots hne hon.holding.sized hon.small hon.rptr hwptr)
    rw [← hslots] at hi hle hw
    rw [hw] at hwptr
    obtain ⟨unread', h'⟩ := enabled_of_pointers
      (p := resized s.sys.desc logsize s.sys.desc.logdsize (some m)) hsized hsmall hi hon.rptr hle
      hwptr
    exact .inl ⟨_, unread', h'⟩
  · have hwptr : s.sys.desc.wptr = 2 ^ logdsize * ((0 + s.sys.desc.count) % 2 ^ logsize) := by
      rw [hoff.wptr, hoff.count, Nat.add_zero, Nat.zero_mod, Nat.mul_zero]
    rw [← hslots] at hwptr
    obtain ⟨unread, h'⟩ := enabled_of_pointers
      (p := resized s.sys.desc logsize logdsize (some m)) hsized hsmall
      (BufDesc.slots_pos _) (hoff.rptr.trans (Nat.mul_zero _).symm)
      (hoff.count ▸ Nat.zero_le _) hwptr
    exact .inl ⟨0, unread, h'⟩

/-- A step that meets the condition keeps the invariant. -/
theorem Inv.step (hdsize : logdsize ≤ BUF_DSIZE_U32) (h : s.Inv logdsize) {a : Action}
    (hok : s.StepOk logdsize a) (hstep : s.step logdsize a = some s') : s'.Inv logdsize := by
  cases a with
  | io a =>
      obtain ⟨sys, hsys, rfl⟩ := Option.map_eq_some_iff.mp hstep
      exact h.io hok hsys
  | flush =>
      simp only [Session.step] at hstep
      split at hstep
      · obtain rfl := Option.some.inj hstep
        exact h.flush
      · cases hstep
  | set logsize realloc =>
      simp only [Session.step] at hstep
      split at hstep
      · rename_i hidle
        split at hstep
        · obtain rfl := Option.some.inj hstep
          cases realloc with
          | none => exact inv_unallocated logsize
          | some m =>
              by_cases hne : logsize = BUF_SIZE_NONE
              · -- a disabled buffer that had been emptied before
                subst hne
                have hempty : logdsize = BUF_DSIZE_U8 ∧ s.sys.desc.rptr = 0 ∧
                    s.sys.desc.wptr = 0 ∧ s.sys.desc.count = 0 := by
                  simpa only [StepOk, SetOk, if_true] using hok
                obtain ⟨rfl, hrptr, hwptr, hcount⟩ := hempty
                refine ⟨.inr ⟨rfl, hrptr, hwptr, hcount, ?_, rfl, .inl rfl⟩, .inl ⟨rfl, rfl⟩⟩
                exact congrArg (fun n => (List.range n).map _) hcount
              · exact ⟨h.set hdsize hidle hne hok, .inr ⟨logsize, by simp [hne], hne, rfl, rfl⟩⟩
        · cases hstep
      · cases hstep

/-! ## Consistency -/

/-- A buffer with room accepts what is written. -/
theorem bufWrite_ok_iff {p : BufDesc} (hcount : bufGetCount p ≤ bufGetSize p) (data : Mem) :
    (bufWrite p data).2 = .PLATFORM_OK ↔ bufIsEnabled p = true := by
  unfold bufGetCount bufGetSize at hcount
  unfold bufIsEnabled bufWrite
  by_cases hnone : p.logsize = BUF_SIZE_NONE
  · simp [hnone]
  · rw [if_neg hnone] at hcount
    simp [hnone, Nat.not_lt.mpr hcount]

theorem consistent_of_enabled {r : Nat} {unread : List (Nat × List UInt8)}
    (hon : s.sys.Enabled r unread) (hsizes : s.Matches logdsize) : s.Consistent := by
  have henabled := hon.holding.sized.enabled
  have hbytes : s.sys.desc.realDsize * s.sys.desc.slots = 2 ^ s.sys.desc.logsize := by
    rw [hon.holding.sized.ring_bytes, Nat.min_eq_left hon.small]
  have hptr (i : Nat) : s.sys.desc.realDsize * (i % s.sys.desc.slots) < 2 ^ s.sys.desc.logsize ∧
      s.sys.desc.realDsize ∣ s.sys.desc.realDsize * (i % s.sys.desc.slots) := by
    rw [← hbytes]
    exact ⟨Nat.mul_lt_mul_of_pos_left (Nat.mod_lt i s.sys.desc.slots_pos)
      (Nat.pow_pos (by decide)), Nat.dvd_mul_right _ _⟩
  have hcount : bufGetCount s.sys.desc ≤ bufGetSize s.sys.desc := by
    have hroom := hon.holding.room
    rw [bufGetCount, bufGetSize, if_neg henabled, ← hon.slots_eq, hon.count]
    exact hroom
  refine ⟨?_, hon.rptr ▸ hptr r, hon.holding.wptr ▸ hptr _, hcount,
    fun _ data => bufWrite_ok_iff hcount data, fun hidle => ?_, System.Inv.ok (.inl ⟨r, _, hon⟩)⟩
  · rcases hsizes with ⟨-, hnone⟩ | ⟨n, hreq, -, hsize, hdsize⟩
    · exact absurd hnone henabled
    · rw [hreq]
      refine ⟨decide_eq_true henabled, ?_⟩
      rw [bufGetSize, if_neg henabled, BufDesc.realSize, hsize, hdsize, Nat.add_sub_cancel]
  · rw [hon.written, hidle, System.held, List.append_nil, List.append_right_eq_self,
      List.map_eq_nil_iff, ← List.length_eq_zero_iff, ← hon.count]
    simp [readEmpty, henabled]

theorem consistent_of_disabled (hoff : s.sys.Disabled) (hsizes : s.Matches logdsize) :
    s.Consistent := by
  have hnone := hoff.logsize
  have hcount : bufGetCount s.sys.desc ≤ bufGetSize s.sys.desc := by
    rw [bufGetCount, hoff.count]
    exact Nat.zero_le _
  have hptr : 0 < 2 ^ s.sys.desc.logsize ∧ s.sys.desc.realDsize ∣ 0 :=
    ⟨Nat.pow_pos (by decide), Nat.dvd_zero _⟩
  refine ⟨?_, hoff.rptr ▸ hptr, hoff.wptr ▸ hptr, hcount,
    fun _ data => bufWrite_ok_iff hcount data, fun _ => ?_, System.Inv.ok (.inr hoff)⟩
  · rcases hsizes with ⟨hreq, -⟩ | ⟨n, -, hne, hsize, -⟩
    · rw [hreq]
      exact ⟨by simp [bufIsEnabled, hnone], if_pos hnone⟩
    · exact absurd (Nat.eq_zero_of_add_eq_zero_right (hsize.symm.trans hnone)) hne
  · rw [hoff.written, hoff.got]
    exact iff_of_true (by simp [readEmpty, hnone]) rfl

theorem Inv.consistent (h : s.Inv logdsize) : s.Consistent := by
  rcases h.sys with ⟨r, unread, hon⟩ | hoff
  · exact consistent_of_enabled hon h.sizes
  · exact consistent_of_disabled hoff h.sizes

/-- **Resizing.**  When `buf_set` is called with pointers that fit the new size and `buf_write`
not with the buffer full, the buffer is consistent in every state. -/
theorem bufSet_consistent (hdsize : logdsize ≤ BUF_DSIZE_U32) {m : Mem} {actions : List Action}
    (hok : Transition.Conforming (step logdsize) (StepOk logdsize) (init m) actions)
    (hrun : Transition.run (step logdsize) (init m) actions = some s) : s.Consistent :=
  (Transition.invariant_of_run (fun _ _ _ h hok hstep => h.step hdsize hok hstep)
    (inv_init m) hok hrun).consistent

/-- Four elements of two bytes, of which one is read; then the buffer shrinks to two, is written
to, read, cannot grow, and is enabled again. -/
theorem bufSet_consistent_resized :
    ∃ s, Transition.run (step 1) (init ⟨fun _ => 0⟩)
        [.set 2 (some ⟨fun _ => 0⟩), .io (.interrupt ⟨fun _ => 1⟩), .io .read, .io .read, .io .read,
          .io .read, .io .read, .set 1 (some ⟨fun _ => 0⟩), .io (.interrupt ⟨fun _ => 2⟩),
          .set 3 none, .set 0 none, .set 4 (some ⟨fun _ => 7⟩)] = some s ∧ s.Consistent :=
  ⟨_, rfl, @bufSet_consistent 1 _ (by decide) ⟨fun _ => 0⟩
    [.set 2 (some ⟨fun _ => 0⟩), .io (.interrupt ⟨fun _ => 1⟩), .io .read, .io .read, .io .read,
      .io .read, .io .read, .set 1 (some ⟨fun _ => 0⟩), .io (.interrupt ⟨fun _ => 2⟩),
      .set 3 none, .set 0 none, .set 4 (some ⟨fun _ => 7⟩)] (by decide) rfl⟩

/-- Three elements of one byte wait when the buffer is disabled. -/
theorem not_consistent_disabled :
    ¬ ∀ (logdsize : Nat), logdsize ≤ BUF_DSIZE_U32 → ∀ (m : Mem) (actions : List Action)
      (s : Session), Transition.run (step logdsize) (init m) actions = some s →
        s.Consistent := by
  intro hall
  have hcon := hall 0 (by decide) ⟨fun _ => 0⟩ [.set 2 (some ⟨fun _ => 0⟩),
    .io (.interrupt ⟨fun _ => 1⟩), .io (.interrupt ⟨fun _ => 2⟩), .io (.interrupt ⟨fun _ => 3⟩),
    .set 0 (some ⟨fun _ => 0⟩)] _ rfl
  exact absurd hcon.count_le (by decide)

end Session

end Charbuf
