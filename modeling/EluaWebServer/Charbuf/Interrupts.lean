import EluaWebServer.Charbuf.Slots
import EluaWebServer.Lib.Transition

/-!
# Reading a character buffer under interrupts

The main program reads, one step of `buf_read` at a time, and an interrupt
writes between any two steps.  The pointers and the count are out of step while
`buf_read` is in progress.
-/

namespace Charbuf

open Memory

/-- Where the main program is in `buf_read`, with the values of its variables:
the address to copy from, then the element that was copied. -/
inductive Reader where
  | idle
  | entered (s : Nat)
  | tested (s : Nat)
  | copied (d : List UInt8)
  | decremented (d : List UInt8)

/-- The buffer and the reader, with the elements that writes accepted and
those that reads returned. -/
structure System where
  desc : BufDesc
  reader : Reader
  written : List (List UInt8)
  got : List (List UInt8)

namespace System

inductive Action where
  | interrupt (data : Mem)
  | read

/-- A whole `buf_write`. -/
def interrupt (s : System) (data : Mem) : System :=
  let (desc, status) := bufWrite s.desc data
  { s with
    desc := desc
    written := if status = .PLATFORM_OK then
      s.written ++ [loadBytes data 0 s.desc.realDsize] else s.written }

/-- The next step of `buf_read`. -/
def readStep (s : System) : System :=
  match s.reader with
  | .idle => { s with reader := .entered s.desc.rptr }
  | .entered a => { s with reader := if readEmpty s.desc then .idle else .tested a }
  | .tested a => { s with reader := .copied (readCopy s.desc a) }
  | .copied d => { s with desc := readDecrement s.desc, reader := .decremented d }
  | .decremented d =>
      { s with desc := readAdvance s.desc, reader := .idle, got := s.got ++ [d] }

def step (s : System) : Action → Option System
  | .interrupt data => some (s.interrupt data)
  | .read => some s.readStep

/-- After `buf_set` on an unused descriptor. -/
def init (logsize logdsize : Nat) (allocated : Bool) (m : Mem) : System :=
  ⟨(bufSet (.fresh m) logsize logdsize allocated).1, .idle, [], []⟩

/-- The buffer has no room. -/
def full (s : System) : Bool :=
  s.desc.logsize ≠ BUF_SIZE_NONE ∧ bufGetCount s.desc = bufGetSize s.desc

/-- `buf_write` is not called with the buffer full. -/
def NotFull (s : System) : Action → Prop
  | .interrupt _ => s.full = false
  | .read => True

instance (s : System) : (a : Action) → Decidable (NotFull s a)
  | .interrupt _ => inferInstanceAs (Decidable (_ = _))
  | .read => inferInstanceAs (Decidable True)

/-- The elements from the read pointer on, as many as the count says. -/
def contents (p : BufDesc) : List (List UInt8) :=
  (List.range p.count).map fun k =>
    loadBytes p.buf ((p.rptr + k * p.realDsize) % 2 ^ p.logsize) p.realDsize

/-- What holds of a buffer whose elements are read in the order they were
written, each once. -/
structure Ok (s : System) : Prop where
  order : s.got <+: s.written
  exact : s.reader = .idle → s.written = s.got ++ contents s.desc
  wptr : s.reader = .idle →
    s.desc.wptr = (s.desc.rptr + s.desc.count * s.desc.realDsize) % 2 ^ s.desc.logsize

/-! ## The invariant -/

/-- The element that has left the count and is not returned yet. -/
def held : Reader → List (List UInt8)
  | .idle | .entered _ | .tested _ | .copied _ => []
  | .decremented d => [d]

/-- What the reader knows about the unread elements. -/
def Progress (rptr : Nat) (unread : List (Nat × List UInt8)) : Reader → Prop
  | .entered a => a = rptr
  | .tested a => a = rptr ∧ unread ≠ []
  | .copied d => ∃ e rest, unread = e :: rest ∧ e.2 = d
  | _ => True

/-- A buffer that is read, with the read pointer at position `r`. -/
structure Reading (p : BufDesc) (reader : Reader) (r : Nat) (unread : List (Nat × List UInt8)) :
    Prop where
  holding : Holding p (r + (held reader).length) unread
  rptr : p.rptr = p.realDsize * (r % p.slots)
  count : p.count = unread.length
  progress : Progress p.rptr unread reader

/-- An enabled buffer, with the read pointer at position `r`. -/
structure Enabled (s : System) (r : Nat) (unread : List (Nat × List UInt8)) : Prop where
  holding : Holding s.desc (r + (held s.reader).length) unread
  rptr : s.desc.rptr = s.desc.realDsize * (r % s.desc.slots)
  count : s.desc.count = unread.length
  small : s.desc.logsize ≤ 16
  written : s.written = s.got ++ held s.reader ++ unread.map Prod.snd
  progress : Progress s.desc.rptr unread s.reader

/-- A disabled buffer stays empty, and reads do not get past the test. -/
structure Disabled (s : System) : Prop where
  logsize : s.desc.logsize = BUF_SIZE_NONE
  rptr : s.desc.rptr = 0
  wptr : s.desc.wptr = 0
  count : s.desc.count = 0
  written : s.written = []
  got : s.got = []
  outside : s.reader = .idle ∨ ∃ a, s.reader = .entered a

def Inv (s : System) : Prop := (∃ r unread, Enabled s r unread) ∨ Disabled s

variable {s s' : System} {r : Nat} {unread : List (Nat × List UInt8)}

theorem inv_init {logsize logdsize : Nat} (hdsize : logdsize ≤ BUF_DSIZE_U32)
    (hsize : logsize + logdsize ≤ 15) (allocated : Bool) (m : Mem) :
    Inv (init logsize logdsize allocated m) := by
  unfold BUF_DSIZE_U32 at hdsize
  cases allocated with
  | false => exact .inr ⟨rfl, rfl, rfl, rfl, rfl, rfl, .inl rfl⟩
  | true =>
      by_cases hnone : logsize + logdsize = BUF_SIZE_NONE
      · exact .inr ⟨hnone, rfl, rfl, rfl, rfl, rfl, .inl rfl⟩
      · have hle : logsize + logdsize ≤ logdsize + 15 := by omega
        refine .inl ⟨0, [], Holding.nil ⟨hnone, Nat.le_add_left _ _, hdsize, hle⟩ rfl, ?_, rfl,
          Nat.le_succ_of_le hsize, rfl, trivial⟩
        rw [Nat.zero_mod, Nat.mul_zero]
        rfl

theorem Progress.push {rptr : Nat} {reader : Reader} (h : Progress rptr unread reader)
    (e : Nat × List UInt8) : Progress rptr (unread ++ [e]) reader := by
  cases reader with
  | idle => trivial
  | entered a => exact h
  | tested a => exact ⟨h.1, List.append_ne_nil_of_left_ne_nil h.2 [e]⟩
  | copied d =>
      obtain ⟨x, rest, rfl, hx⟩ := h
      exact ⟨x, rest ++ [e], rfl, hx⟩
  | decremented d => trivial

/-- A write to a buffer with a free slot. -/
theorem Reading.bufWrite {p : BufDesc} {reader : Reader} (h : Reading p reader r unread)
    (hroom : unread.length < p.slots) (data : Mem) :
    ∃ p', Charbuf.bufWrite p data = (p', .PLATFORM_OK) ∧
      Reading p' reader r (unread ++ [(p.wptr, loadBytes data 0 p.realDsize)]) ∧
      p'.logsize = p.logsize ∧ p'.logdsize = p.logdsize := by
  obtain ⟨p', hwrite, hold', hsize, hdsize, hrptr', hcount'⟩ :=
    h.holding.bufWrite (Nat.le_of_eq h.count) hroom data
  refine ⟨p', hwrite, ⟨hold', ?_, ?_, ?_⟩, hsize, hdsize⟩
  · simp only [hrptr', h.rptr, BufDesc.realDsize, BufDesc.slots, hsize, hdsize]
  · simp only [hcount', h.count, List.length_append, List.length_singleton]
  · exact hrptr' ▸ h.progress.push _

/-- The first element that is not read is where the read pointer is. -/
theorem Reading.readCopy_eq {p : BufDesc} {a : Nat} {e : Nat × List UInt8}
    (h : Reading p (.tested a) r (e :: unread)) : readCopy p a = e.2 := by
  have hfirst : p.slot (r % p.slots) = e := h.holding.holds.1
  rw [← hfirst, h.progress.1, h.rptr]
  rfl

/-- Every step of `buf_read`: what has been returned or is held, and the unread elements,
stay the same in their order. -/
theorem Reading.readStep (h : Reading s.desc s.reader r unread) :
    ∃ r' unread', Reading s.readStep.desc s.readStep.reader r' unread' ∧
      s.readStep.desc.logsize = s.desc.logsize ∧ s.readStep.desc.logdsize = s.desc.logdsize ∧
      s.readStep.written = s.written ∧
      s.readStep.got ++ held s.readStep.reader ++ unread'.map Prod.snd =
        s.got ++ held s.reader ++ unread.map Prod.snd := by
  obtain ⟨p, reader, written, got⟩ := s
  cases reader with
  | idle => exact ⟨r, unread, ⟨h.holding, h.rptr, h.count, rfl⟩, rfl, rfl, rfl, rfl⟩
  | entered a =>
      by_cases hempty : readEmpty p = true
      · have hstep : System.readStep ⟨p, .entered a, written, got⟩ = ⟨p, .idle, written, got⟩ := by
          simp only [System.readStep, if_pos hempty]
        rw [hstep]
        exact ⟨r, unread, ⟨h.holding, h.rptr, h.count, trivial⟩, rfl, rfl, rfl, rfl⟩
      · have hstep : System.readStep ⟨p, .entered a, written, got⟩ =
            ⟨p, .tested a, written, got⟩ := by
          simp only [System.readStep, if_neg hempty]
        rw [hstep]
        refine ⟨r, unread, ⟨h.holding, h.rptr, h.count, h.progress, ?_⟩, rfl, rfl, rfl, rfl⟩
        intro hnil
        subst hnil
        exact hempty (by simp [readEmpty, show p.count = 0 from h.count])
  | tested a =>
      obtain ⟨e, rest, rfl⟩ := List.exists_cons_of_ne_nil h.progress.2
      exact ⟨r, e :: rest, ⟨h.holding, h.rptr, h.count, e, rest, rfl, h.readCopy_eq.symm⟩, rfl,
        rfl, rfl, rfl⟩
  | copied d =>
      obtain ⟨e, rest, rfl, rfl⟩ := h.progress
      have htail : Holding p (r + 1) rest := Holding.tail h.holding
      refine ⟨r, rest, ⟨⟨htail.sized, htail.wptr, htail.holds, htail.room⟩, h.rptr,
        count_readDecrement h.count, trivial⟩, rfl, rfl, rfl, ?_⟩
      simp only [System.readStep, held, List.map_cons, List.append_assoc, List.singleton_append,
        List.nil_append]
  | decremented d =>
      have hold := h.holding
      refine ⟨r + 1, unread, ⟨⟨hold.sized, hold.wptr, hold.holds, hold.room⟩, ?_, h.count,
        trivial⟩, rfl, rfl, rfl, ?_⟩
      · exact (congrArg p.modIncr h.rptr).trans (hold.sized.modIncr_slot r)
      · simp only [System.readStep, held, List.append_nil]

theorem Enabled.reading (h : Enabled s r unread) : Reading s.desc s.reader r unread :=
  ⟨h.holding, h.rptr, h.count, h.progress⟩

theorem Enabled.slots_eq (h : Enabled s r unread) : s.desc.slots = s.desc.realSize := by
  rw [BufDesc.slots, BufDesc.realSize, Nat.min_eq_left h.small]

/-- An interrupt that does not find the buffer full appends its element. -/
theorem Enabled.interrupt (h : Enabled s r unread) (data : Mem) (hfull : s.full = false) :
    ∃ e, Enabled (s.interrupt data) r (unread ++ [e]) := by
  have hroom : unread.length < s.desc.slots := by
    have hne : s.desc.count ≠ s.desc.realSize := by
      simpa [full, bufGetCount, bufGetSize, h.holding.sized.enabled] using hfull
    have hle := h.holding.room
    rw [h.count, ← h.slots_eq] at hne
    omega
  obtain ⟨p', hwrite, hread, hsize, hdsize⟩ := h.reading.bufWrite hroom data
  have hsys : s.interrupt data =
      { s with desc := p', written := s.written ++ [loadBytes data 0 s.desc.realDsize] } := by
    simp only [System.interrupt, hwrite, if_true]
  rw [hsys]
  refine ⟨_, hread.holding, hread.rptr, hread.count, hsize ▸ h.small, ?_, hread.progress⟩
  simp only [h.written, List.map_append, List.map_cons, List.map_nil, List.append_assoc]

/-- Every step of `buf_read` on an enabled buffer. -/
theorem Enabled.readStep (h : Enabled s r unread) :
    ∃ r unread, Enabled s.readStep r unread := by
  obtain ⟨r', unread', hread, hsize, -, hwritten, hsame⟩ := h.reading.readStep
  refine ⟨r', unread', hread.holding, hread.rptr, hread.count, hsize ▸ h.small, ?_,
    hread.progress⟩
  rw [hwritten, hsame, h.written]

theorem Disabled.interrupt (h : Disabled s) (data : Mem) : s.interrupt data = s := by
  rw [System.interrupt, bufWrite, if_pos h.logsize]
  rfl

theorem Disabled.readStep (h : Disabled s) : Disabled s.readStep := by
  obtain ⟨hnone, hrptr, hwptr, hcount, hwritten, hgot, hreader | ⟨a, hreader⟩⟩ := h
  · rw [System.readStep, hreader]
    exact ⟨hnone, hrptr, hwptr, hcount, hwritten, hgot, .inr ⟨_, rfl⟩⟩
  · have hempty : readEmpty s.desc = true := by simp [readEmpty, hnone]
    rw [System.readStep, hreader]
    exact ⟨hnone, hrptr, hwptr, hcount, hwritten, hgot, .inl (if_pos hempty)⟩

theorem inv_step {a : Action} (h : Inv s) (hok : NotFull s a) (hstep : step s a = some s') :
    Inv s' := by
  cases a with
  | interrupt data =>
      obtain rfl := Option.some.inj hstep
      rcases h with ⟨r, unread, h⟩ | h
      · obtain ⟨e, h'⟩ := h.interrupt data hok
        exact .inl ⟨r, _, h'⟩
      · rw [h.interrupt data]
        exact .inr h
  | read =>
      obtain rfl := Option.some.inj hstep
      rcases h with ⟨r, unread, h⟩ | h
      · exact .inl h.readStep
      · exact .inr h.readStep

/-! ## First in, first out -/

/-- A pointer some slots behind the read pointer. -/
theorem Enabled.ptr_eq (h : Enabled s r unread) (k : Nat) :
    (s.desc.rptr + k * s.desc.realDsize) % 2 ^ s.desc.logsize =
      s.desc.realDsize * ((r + k) % s.desc.slots) := by
  have hbytes := h.holding.sized.ring_bytes
  rw [Nat.min_eq_left h.small] at hbytes
  rw [h.rptr, ← hbytes, Nat.mul_comm k, ← Nat.mul_add, Nat.mul_mod_mul_left, Nat.mod_add_mod]

/-- Between reads, the unread elements are those from the read pointer on. -/
theorem Enabled.contents_eq (h : Enabled s r unread) (hidle : s.reader = .idle) :
    contents s.desc = unread.map Prod.snd := by
  have hholds := h.holding.holds
  simp only [hidle, held, List.length_nil, Nat.add_zero] at hholds
  rw [← hholds.map_range, List.map_map, contents, h.count]
  refine List.map_congr_left fun k _ => ?_
  rw [h.ptr_eq k]
  rfl

theorem Inv.ok (h : Inv s) : s.Ok := by
  rcases h with ⟨r, unread, h⟩ | h
  · refine ⟨?_, fun hidle => ?_, fun hidle => ?_⟩
    · rw [h.written, List.append_assoc]
      exact List.prefix_append _ _
    · rw [h.contents_eq hidle, h.written, hidle, held, List.append_nil]
    · have hwptr := h.holding.wptr
      simp only [hidle, held, List.length_nil, Nat.add_zero] at hwptr
      rw [h.count, h.ptr_eq, hwptr]
  · have hcontents : contents s.desc = [] := by rw [contents, h.count]; rfl
    refine ⟨?_, fun _ => ?_, fun _ => ?_⟩
    · rw [h.got]
      exact List.nil_prefix
    · rw [h.written, h.got, hcontents]
      rfl
    · rw [h.wptr, h.rptr, h.count, Nat.zero_mul, Nat.zero_mod]

/-- **First in, first out.**  With writes from interrupts between the steps of
`buf_read`, and none while the buffer is full, the elements come out in the
order they went in, each once. -/
theorem buf_fifo {logsize logdsize : Nat} (hdsize : logdsize ≤ BUF_DSIZE_U32)
    (hsize : logsize + logdsize ≤ 15) {allocated : Bool} {m : Mem} {actions : List Action}
    (hok : Transition.Conforming step NotFull (init logsize logdsize allocated m) actions)
    (hrun : Transition.run step (init logsize logdsize allocated m) actions = some s) :
    s.Ok :=
  (Transition.invariant_of_run (fun _ _ _ => inv_step)
    (inv_init hdsize hsize allocated m) hok hrun).ok

/-- Two elements of two bytes; the third is written between the decrement and
the move of the read pointer. -/
theorem buf_fifo_two_elements :
    ∃ s, Transition.run step (init 1 1 true ⟨fun _ => 0⟩)
        [.interrupt ⟨fun _ => 1⟩, .interrupt ⟨fun _ => 2⟩, .read, .read, .read, .read,
          .interrupt ⟨fun _ => 3⟩, .read] = some s ∧ s.Ok :=
  ⟨_, rfl, @buf_fifo _ 1 1 (by decide) (by decide) true ⟨fun _ => 0⟩
    [.interrupt ⟨fun _ => 1⟩, .interrupt ⟨fun _ => 2⟩, .read, .read, .read, .read,
      .interrupt ⟨fun _ => 3⟩, .read] (by decide) rfl⟩

end System

end Charbuf
