/-!
# The flags of `open`

The values are those of the target's newlib.
-/

namespace Fcntl

def O_RDONLY : UInt32 := 0
def O_WRONLY : UInt32 := 1
def O_RDWR : UInt32 := 2
def O_ACCMODE : UInt32 := 3
def O_APPEND : UInt32 := 8
def O_CREAT : UInt32 := 0x200
def O_TRUNC : UInt32 := 0x400
def O_EXCL : UInt32 := 0x800
def O_BINARY : UInt32 := 0x10000

inductive Access where
  | readOnly
  | writeOnly
  | readWrite
  deriving DecidableEq

/-- An access mode with any of the other flags. -/
structure Flags where
  access : Access
  creat : Bool
  excl : Bool
  trunc : Bool
  append : Bool
  deriving DecidableEq

def Access.bits : Access → UInt32
  | .readOnly => O_RDONLY
  | .writeOnly => O_WRONLY
  | .readWrite => O_RDWR

/-- The flags as an argument of `open`. -/
def Flags.bits (f : Flags) : UInt32 :=
  f.access.bits ||| (if f.creat then O_CREAT else 0) ||| (if f.excl then O_EXCL else 0) |||
    (if f.trunc then O_TRUNC else 0) ||| (if f.append then O_APPEND else 0)

/-- The file is opened for writing. -/
def Flags.writes (f : Flags) : Bool := decide (f.access ≠ .readOnly)

end Fcntl
