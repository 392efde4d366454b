import EluaWebServer.Httpd.Tags

/-!
# The output of scripts

What a script prints comes to `uip_write`, which is the `write` function of the
standard device when there is a web server.  It collects the output in the
`write_buffer` of the connection and leaves newlines out.
-/

namespace Httpd.Output

def WRITE_BUFFER_SIZE : Nat := 1024

/-- `write_buffer`. -/
abbrev WriteBuffer := { b : List UInt8 // b.length = WRITE_BUFFER_SIZE }

/-- What `uip_write` uses of a `struct httpd_state`. -/
structure HttpdState where
  writeBuffer : WriteBuffer
  writeBufferLen : Nat

def DM_STDIN_NUM : Int := 0
def DM_STDOUT_NUM : Int := 1
def DM_STDERR_NUM : Int := 2

inductive Errno where
  | EBADF
  | EINVAL
  deriving DecidableEq

/-- `'\n'`. -/
def newline : UInt8 := 10

/-- `'\r'`. -/
def carriageReturn : UInt8 := 13

/-- `write_buffer[ p ] = c`.  Outside of the buffer there is no result. -/
def WriteBuffer.put (b : WriteBuffer) (p : Nat) (c : UInt8) : Option WriteBuffer :=
  if p < WRITE_BUFFER_SIZE then some ⟨b.1.set p c, List.length_set.trans b.2⟩ else none

/-- The loop of `uip_write` from index `i` on, with the bytes from there on.  A
newline makes `len` smaller. -/
def writeLoop (base : Nat) : List UInt8 → Nat → Nat → WriteBuffer → Option (WriteBuffer × Nat)
  | [], _, len, b => some (b, len)
  | c :: cs, i, len, b =>
      if i < len then
        if c ≠ newline then
          (b.put (base + i) c).bind fun b => writeLoop base cs (i + 1) len b
        else writeLoop base cs (i + 1) (len - 1) b
      else some (b, len)

/-- `http_uart_send_str`: what is sent. -/
def httpUartSendStr (ptr : List UInt8) : List UInt8 :=
  ptr.flatMap fun c => if c = newline then [carriageReturn, c] else [c]

/-- What a call of `uip_write` does: the state, what is sent to the UART, the
returned value and `errno`. -/
structure Written where
  state : HttpdState
  uart : List UInt8
  ret : Int
  errno : Option Errno

/-- `uip_write`, without its assertion: `httpd.h` defines `NDEBUG`. -/
def uipWrite (s : HttpdState) (fd : Int) (ptr : List UInt8) : Option Written :=
  if fd < DM_STDIN_NUM ∨ DM_STDERR_NUM < fd then some ⟨s, [], -1, some .EBADF⟩
  else if fd ≠ DM_STDOUT_NUM ∧ fd ≠ DM_STDERR_NUM then some ⟨s, [], -1, some .EINVAL⟩
  else if fd = DM_STDERR_NUM then some ⟨s, httpUartSendStr ptr, ptr.length, none⟩
  else
    (writeLoop s.writeBufferLen ptr 0 ptr.length s.writeBuffer).map fun (b, len) =>
      ⟨⟨b, s.writeBufferLen + len⟩, [], len, none⟩

/-- `write_buffer[0..write_buffer_len)`, if it is in the buffer. -/
def HttpdState.output (s : HttpdState) : Option (List UInt8) :=
  slice s.writeBuffer.1 0 s.writeBufferLen

/-- Data without its newlines. -/
def withoutNewlines (ptr : List UInt8) : List UInt8 := ptr.filter (· ≠ newline)

/-- The calls of a run of a script on standard output, each of which does what
it should: nothing is stored outside of the buffer, the bytes that are said to
be written are added without their newlines, and these are all bytes if there
is room for them. -/
def Captures : HttpdState → List (List UInt8) → Prop
  | _, [] => True
  | s, ptr :: calls =>
      ∃ w, uipWrite s DM_STDOUT_NUM ptr = some w ∧ w.errno = none ∧ w.uart = [] ∧
        ∃ ret out, w.ret = (ret : Nat) ∧ ret ≤ ptr.length ∧ s.output = some out ∧
          w.state.output = some (out ++ withoutNewlines (ptr.take ret)) ∧
          (s.writeBufferLen + (withoutNewlines ptr).length ≤ WRITE_BUFFER_SIZE →
            ret = ptr.length) ∧
          Captures w.state calls

/-! ## One call -/

variable {base : Nat} {ptr : List UInt8} {i len len' : Nat} {b b' : WriteBuffer}

/-- The length goes down by one for each newline that is seen. -/
theorem writeLoop_len (h : writeLoop base ptr i len b = some (b', len')) :
    len' ≤ len ∧ len ≤ len' + ptr.count newline := by
  induction ptr generalizing i len b with
  | nil =>
      obtain ⟨-, rfl⟩ := Prod.mk.inj (Option.some.inj h)
      exact ⟨Nat.le_refl _, Nat.le_add_right _ _⟩
  | cons c cs ih =>
      rw [writeLoop] at h
      split at h
      · rename_i hlt
        split at h
        · rename_i hc
          obtain ⟨b₁, -, hrest⟩ := Option.bind_eq_some_iff.mp h
          have hlen := ih hrest
          rw [List.count_cons_of_ne hc]
          exact hlen
        · rename_i hc
          have hlen := ih h
          rw [not_not.mp hc, List.count_cons_self]
          omega
      · obtain ⟨-, rfl⟩ := Prod.mk.inj (Option.some.inj h)
        exact ⟨Nat.le_refl _, Nat.le_add_right _ _⟩

/-- With a newline in it, the data is said to be shorter than it is. -/
theorem writeLoop_newline (h : writeLoop base ptr i len b = some (b', len'))
    (hlen : i + ptr.length = len) (hnl : newline ∈ ptr) : len' < len := by
  induction ptr generalizing i len b with
  | nil => cases hnl
  | cons c cs ih =>
      rw [List.length_cons] at hlen
      rw [writeLoop, if_pos (by omega)] at h
      split at h
      · rename_i hc
        obtain ⟨b₁, -, hrest⟩ := Option.bind_eq_some_iff.mp h
        have htail : newline ∈ cs := (List.mem_cons.mp hnl).resolve_left (Ne.symm hc)
        exact ih hrest (by omega) htail
      · have := (writeLoop_len h).1
        omega

/-- Without newlines the data is copied. -/
theorem writeLoop_copy (hnl : newline ∉ ptr) (hlen : i + ptr.length = len)
    (hroom : base + len ≤ WRITE_BUFFER_SIZE) :
    ∃ b' : WriteBuffer, writeLoop base ptr i len b = some (b', len) ∧
      b'.1.take (base + len) = b.1.take (base + i) ++ ptr := by
  induction ptr generalizing i b with
  | nil =>
      obtain rfl : i = len := hlen
      exact ⟨b, rfl, (List.append_nil _).symm⟩
  | cons c cs ih =>
      rw [List.length_cons] at hlen
      rw [List.mem_cons, not_or] at hnl
      have hin : base + i < WRITE_BUFFER_SIZE := by omega
      obtain ⟨b', hloop, htake⟩ := ih hnl.2 (show i + 1 + cs.length = len by omega)
        (b := ⟨b.1.set (base + i) c, List.length_set.trans b.2⟩)
      refine ⟨b', ?_, ?_⟩
      · rw [writeLoop, if_pos (by omega), if_pos (Ne.symm hnl.1), WriteBuffer.put, if_pos hin]
        exact hloop
      · have hstored : (b.1.set (base + i) c).take (base + (i + 1)) = b.1.take (base + i) ++ [c] := by
          have hbound : base + i < (b.1.set (base + i) c).length := by
            rw [List.length_set, b.2]
            exact hin
          rw [← Nat.add_assoc, List.take_succ_eq_append_getElem hbound, List.take_set_of_le (Nat.le_refl _),
            List.getElem_set_self]
        rw [htake, hstored, List.append_assoc]
        rfl

theorem length_withoutNewlines (ptr : List UInt8) :
    (withoutNewlines ptr).length + ptr.count newline = ptr.length := by
  have hsplit := List.length_eq_length_filter_add (l := ptr) (fun c => decide (c ≠ newline))
  have hcount : (ptr.filter fun c => !decide (c ≠ newline)).length = ptr.count newline := by
    rw [List.count, List.countP_eq_length_filter]
    congr 1
    apply List.filter_congr
    intro c _
    by_cases hc : c = newline <;> simp [hc]
  rw [hcount] at hsplit
  exact hsplit.symm

theorem withoutNewlines_eq (h : newline ∉ ptr) : withoutNewlines ptr = ptr := by
  rw [withoutNewlines, List.filter_eq_self]
  intro c hc
  have hne : c ≠ newline := fun heq => h (heq ▸ hc)
  exact decide_eq_true hne

variable {s : HttpdState}

theorem uipWrite_stdout (s : HttpdState) (ptr : List UInt8) :
    uipWrite s DM_STDOUT_NUM ptr =
      (writeLoop s.writeBufferLen ptr 0 ptr.length s.writeBuffer).map fun (b, len) =>
        ⟨⟨b, s.writeBufferLen + len⟩, [], len, none⟩ :=
  rfl

theorem output_eq (h : s.writeBufferLen ≤ WRITE_BUFFER_SIZE) :
    s.output = some (s.writeBuffer.1.take s.writeBufferLen) := by
  have hin : 0 + s.writeBufferLen ≤ s.writeBuffer.1.length := by
    rw [s.writeBuffer.2]
    omega
  rw [HttpdState.output, slice, if_pos hin, List.drop_zero]

theorem le_of_output {out : List UInt8} (h : s.output = some out) :
    s.writeBufferLen ≤ WRITE_BUFFER_SIZE := by
  rw [HttpdState.output, slice] at h
  split at h
  · rename_i hin
    rw [s.writeBuffer.2] at hin
    omega
  · cases h

/-- Data without newlines that fits is written as it is. -/
theorem uipWrite_copy (hnl : newline ∉ ptr)
    (hroom : s.writeBufferLen + ptr.length ≤ WRITE_BUFFER_SIZE) :
    ∃ s' : HttpdState, uipWrite s DM_STDOUT_NUM ptr = some ⟨s', [], ptr.length, none⟩ ∧
      s'.writeBufferLen = s.writeBufferLen + ptr.length ∧
      s'.output = some (s.writeBuffer.1.take s.writeBufferLen ++ ptr) := by
  obtain ⟨b', hloop, htake⟩ :=
    writeLoop_copy (b := s.writeBuffer) hnl (Nat.zero_add ptr.length) hroom
  refine ⟨⟨b', s.writeBufferLen + ptr.length⟩, ?_, rfl, ?_⟩
  · rw [uipWrite_stdout, hloop]
    rfl
  · rw [output_eq hroom]
    exact congrArg some htake

/-- **One call.**  What it should do, it does exactly with data that fits and
has no newlines. -/
theorem captures_cons_iff (h : s.writeBufferLen ≤ WRITE_BUFFER_SIZE) (ptr : List UInt8)
    (calls : List (List UInt8)) :
    Captures s (ptr :: calls) ↔
      newline ∉ ptr ∧ s.writeBufferLen + ptr.length ≤ WRITE_BUFFER_SIZE ∧
        ∃ s' : HttpdState, uipWrite s DM_STDOUT_NUM ptr = some ⟨s', [], ptr.length, none⟩ ∧
          s'.writeBufferLen = s.writeBufferLen + ptr.length ∧ Captures s' calls := by
  constructor
  · rintro ⟨w, hwrite, -, -, ret, out, hret, hle, -, hout, hroom, hrest⟩
    rw [uipWrite_stdout] at hwrite
    obtain ⟨⟨b', len'⟩, hloop, rfl⟩ := Option.map_eq_some_iff.mp hwrite
    dsimp only at hret hout hrest
    obtain rfl : len' = ret := Int.ofNat.inj hret
    -- Everything fits, since what is said to be written does.
    have hin : s.writeBufferLen + len' ≤ WRITE_BUFFER_SIZE := le_of_output hout
    have hlen := (writeLoop_len hloop).2
    have hcount := length_withoutNewlines ptr
    have hall : len' = ptr.length := hroom (by omega)
    have hnl : newline ∉ ptr := by
      intro hmem
      have := writeLoop_newline hloop (Nat.zero_add _) hmem
      omega
    subst hall
    refine ⟨hnl, hin, ⟨b', s.writeBufferLen + ptr.length⟩, ?_, rfl, hrest⟩
    rw [uipWrite_stdout, hloop]
    rfl
  · rintro ⟨hnl, hin, s', hwrite, hlen, hrest⟩
    obtain ⟨s₁, hcopy, -, hout⟩ := uipWrite_copy hnl hin
    have hsame := hwrite.symm.trans hcopy
    rw [Option.some.injEq, Written.mk.injEq] at hsame
    obtain rfl := hsame.1
    refine ⟨_, hwrite, rfl, rfl, ptr.length, _, rfl, Nat.le_refl _, output_eq h, ?_, fun _ => rfl, hrest⟩
    rw [List.take_length, withoutNewlines_eq hnl]
    exact hout

/-! ## All calls of a run -/

/-- **Output capture.**  Every call of a run of a script does what it should if
and only if no data has a newline in it and all data fits the buffer. -/
theorem captures_iff {s : HttpdState} (h : s.writeBufferLen ≤ WRITE_BUFFER_SIZE)
    (calls : List (List UInt8)) :
    Captures s calls ↔
      (∀ ptr ∈ calls, newline ∉ ptr) ∧
        s.writeBufferLen + calls.flatten.length ≤ WRITE_BUFFER_SIZE := by
  induction calls generalizing s with
  | nil => exact iff_of_true trivial ⟨nofun, h⟩
  | cons ptr calls ih =>
      rw [captures_cons_iff h, List.forall_mem_cons, List.flatten_cons, List.length_append]
      constructor
      · rintro ⟨hnl, hin, s', -, hlen, hrest⟩
        obtain ⟨hnls, hins⟩ := (ih (hlen ▸ hin)).mp hrest
        exact ⟨⟨hnl, hnls⟩, by omega⟩
      · rintro ⟨⟨hnl, hnls⟩, hins⟩
        have hin : s.writeBufferLen + ptr.length ≤ WRITE_BUFFER_SIZE := by omega
        obtain ⟨s', hwrite, hlen, -⟩ := uipWrite_copy hnl hin
        exact ⟨hnl, hin, s', hwrite, hlen, (ih (hlen ▸ hin)).mpr ⟨hnls, by omega⟩⟩

/-- A connection when `http_run_elua` has emptied its buffer. -/
def HttpdState.cleared : HttpdState :=
  ⟨⟨List.replicate WRITE_BUFFER_SIZE 0, List.length_replicate⟩, 0⟩

/-- `io.write("hi", "!")` is captured. -/
theorem captures_hi : Captures .cleared [[104, 105], [33]] :=
  (captures_iff (Nat.zero_le _) _).mpr ⟨by decide, by decide⟩

/-- The line feed of `print("a")` is a byte that is never written. -/
theorem not_captures_print : ¬Captures .cleared [[97, 10]] := by
  rintro ⟨w, hwrite, -, -, ret, out, hret, -, -, -, hroom, -⟩
  rw [uipWrite_stdout] at hwrite
  obtain ⟨⟨b', len'⟩, hloop, rfl⟩ := Option.map_eq_some_iff.mp hwrite
  have hshort : len' < 2 := writeLoop_newline hloop rfl (by decide)
  have hall : ret = 2 := hroom (by decide)
  have hsame : len' = ret := Int.ofNat.inj hret
  omega

end Httpd.Output
