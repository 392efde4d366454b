import EluaWebServer.Lib.Memory

/-!
# Character device buffers

A buffer descriptor holds the base 2 logarithms of the size of the buffer and
of its elements, in bytes, two pointers into it and the number of elements.
The pointers and the count have 16 bits.  `buf_read` is made of the steps
between which an interrupt can run.
-/

namespace Charbuf

open Memory

/-- Buffer sizes. -/
def BUF_SIZE_NONE : Nat := 0
def BUF_SIZE_32768 : Nat := 15

/-- Element sizes. -/
def BUF_DSIZE_U8 : Nat := 0
def BUF_DSIZE_U32 : Nat := 2

inductive Status where
  | PLATFORM_OK
  | PLATFORM_ERR
  | PLATFORM_UNDERFLOW
  deriving DecidableEq, Repr

/-- This structure describes a buffer. -/
structure BufDesc where
  logsize : Nat
  wptr : Nat
  rptr : Nat
  count : Nat
  buf : Mem
  logdsize : Nat

section

variable (p : BufDesc)

/-- `BUF_MOD_INCR`: what the pointer is moved to. -/
def BufDesc.modIncr (m : Nat) : Nat :=
  ((m + 2 ^ p.logdsize) &&& (2 ^ p.logsize - 1)) % 2 ^ 16

/-- `BUF_REALSIZE`. -/
def BufDesc.realSize : Nat := 2 ^ (p.logsize - p.logdsize)

/-- `BUF_REALDSIZE`. -/
def BufDesc.realDsize : Nat := 2 ^ p.logdsize

/-- Initialize the buffer; `allocated` says whether `realloc` found memory. -/
def bufSet (logsize logdsize : Nat) (allocated : Bool) : BufDesc × Status :=
  if allocated then
    ({ p with logdsize := logdsize, logsize := logsize + logdsize }, .PLATFORM_OK)
  else
    ({ p with logdsize := logdsize, logsize := BUF_SIZE_NONE, rptr := 0, wptr := 0, count := 0 },
      if logsize ≠ BUF_SIZE_NONE then .PLATFORM_ERR else .PLATFORM_OK)

/-- Marks buffer as empty. -/
def bufFlush : BufDesc := { p with rptr := 0, wptr := 0, count := 0 }

/-- Write to buffer. -/
def bufWrite (data : Mem) : BufDesc × Status :=
  if p.logsize = BUF_SIZE_NONE then (p, .PLATFORM_ERR)
  else if p.realSize < p.count then (p, .PLATFORM_ERR)
  else
    ({ p with
        buf := storeBytes p.buf p.wptr (loadBytes data 0 p.realDsize)
        wptr := p.modIncr p.wptr
        count := (p.count + 1) % 2 ^ 16 }, .PLATFORM_OK)

/-- Returns 1 if the specified device is buffered, 0 otherwise. -/
def bufIsEnabled : Bool := p.logsize ≠ BUF_SIZE_NONE

/-- Return the size of the buffer in number. -/
def bufGetSize : Nat := if p.logsize = BUF_SIZE_NONE then 0 else p.realSize

/-- Return the size of the data in the buffer. -/
def bufGetCount : Nat := p.count

/-! ## The steps of `buf_read` -/

/-- Nothing to read. -/
def readEmpty : Bool := p.logsize = BUF_SIZE_NONE ∨ p.count = 0

/-- The element is copied from where `rptr` was. -/
def readCopy (s : Nat) : List UInt8 := loadBytes p.buf s p.realDsize

/-- The count is decremented with interrupts disabled. -/
def readDecrement : BufDesc :=
  { p with count := if p.count = 0 then 2 ^ 16 - 1 else p.count - 1 }

/-- The read pointer moves on. -/
def readAdvance : BufDesc := { p with rptr := p.modIncr p.rptr }

/-- Get data from buffer. -/
def bufRead : BufDesc × Status × List UInt8 :=
  if readEmpty p then (p, .PLATFORM_UNDERFLOW, [])
  else
    let d := readCopy p p.rptr
    (readAdvance (readDecrement p), .PLATFORM_OK, d)

end

/-- A descriptor that was never used. -/
def BufDesc.fresh (m : Mem) : BufDesc := ⟨0, 0, 0, 0, m, 0⟩

end Charbuf
