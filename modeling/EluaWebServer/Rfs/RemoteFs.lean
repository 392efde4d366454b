import EluaWebServer.Rpc.RoundTrip

/-!
# The remote file system operations

Each of the eight operations has a request and a response, and each of these
is one format string of the packet codec.  A decoder that is given fewer
values than its format stores is `none`; this never happens, since the format
fixes the values.
-/

namespace Rfs

open Rpc

/-! Operation ids. -/

def RFS_OP_OPEN : UInt32 := 0x01
def RFS_OP_FIRST : UInt32 := RFS_OP_OPEN
def RFS_OP_WRITE : UInt32 := 0x02
def RFS_OP_READ : UInt32 := 0x03
def RFS_OP_CLOSE : UInt32 := 0x04
def RFS_OP_LSEEK : UInt32 := 0x05
def RFS_OP_OPENDIR : UInt32 := 0x06
def RFS_OP_READDIR : UInt32 := 0x07
def RFS_OP_CLOSEDIR : UInt32 := 0x08
def RFS_OP_LAST : UInt32 := RFS_OP_CLOSEDIR

/-! Platform independent flags of `open` and modes of `lseek`. -/

def RFS_OPEN_FLAG_APPEND : UInt32 := 0x01
def RFS_OPEN_FLAG_CREAT : UInt32 := 0x02
def RFS_OPEN_FLAG_EXCL : UInt32 := 0x04
def RFS_OPEN_FLAG_TRUNC : UInt32 := 0x08
def RFS_OPEN_FLAG_SYNC : UInt32 := 0x10
def RFS_OPEN_FLAG_RDONLY : UInt32 := 0x20
def RFS_OPEN_FLAG_WRONLY : UInt32 := 0x40
def RFS_OPEN_FLAG_RDWR : UInt32 := 0x80

def RFS_LSEEK_SET : UInt32 := 0x01
def RFS_LSEEK_CUR : UInt32 := 0x02
def RFS_LSEEK_END : UInt32 := 0x03

def RFS_MAX_FNAME_SIZE : Nat := 31

/-- The characters of a C string. -/
structure CString where
  chars : List UInt8
  noNul : 0 ∉ chars

/-- The string with its terminator, as it stands in memory. -/
def CString.bytes (s : CString) : List UInt8 := s.chars ++ [0]

/-- `strlen( s ) + 1`. -/
def CString.size (s : CString) : Nat := s.chars.length + 1

theorem CString.bytes_length (s : CString) : s.bytes.length = s.size := by
  simp [bytes, size]

theorem CString.toNat_size {s : CString} (h : s.bytes.length < 2 ^ 32) :
    s.size.toUInt32.toNat = s.bytes.length := by
  rw [s.bytes_length] at h ⊢
  exact Nat.mod_eq_of_lt h

/-- The string that a pointer into a buffer designates: the bytes up to the
first NUL.  A buffer that ends before a NUL is read out of bounds. -/
def cstringAt (buf : List UInt8) (p : Nat) : Option (List UInt8) :=
  if 0 ∈ buf.drop p then some ((buf.drop p).takeWhile (· ≠ 0)) else none

/-! ## The common shapes

Six responses carry one 32-bit result and three requests one 32-bit argument;
they differ in the specifier and the operation id. -/

def writeResult (c : Char) (op : UInt32) (p : List UInt8) (result : UInt32) :
    Option (List UInt8) :=
  eluarpcGenWrite p ['r', c] [.int op, .int result]

def readResult (c : Char) (op : UInt32) (p : List UInt8) : Option (UInt32 × ErrFlag) := do
  let (vs, e) ← eluarpcGenRead p ['r', c] [op]
  let [.u32 result] := vs | none
  return (result, e)

def writeArg (c : Char) (op : UInt32) (p : List UInt8) (arg : UInt32) :
    Option (List UInt8) :=
  eluarpcGenWrite p ['o', c] [.int op, .int arg]

def readArg (c : Char) (op : UInt32) (p : List UInt8) : Option (UInt32 × ErrFlag) := do
  let (vs, e) ← eluarpcGenRead p ['o', c] [op]
  let [.u32 arg] := vs | none
  return (arg, e)

/-! ## open -/

def remotefsOpenWriteResponse := writeResult 'i' RFS_OP_OPEN

def remotefsOpenReadResponse := readResult 'i' RFS_OP_OPEN

def remotefsOpenWriteRequest (p : List UInt8) (pathname : CString) (flags mode : UInt32) :
    Option (List UInt8) :=
  eluarpcGenWrite p ['o', 'p', 'i', 'i']
    [.int RFS_OP_OPEN, .ptr (some pathname.bytes), .int pathname.size.toUInt32, .int flags,
      .int mode]

def remotefsOpenReadRequest (p : List UInt8) :
    Option ((Option Nat × UInt32 × UInt32) × ErrFlag) := do
  let (vs, e) ← eluarpcGenRead p ['o', 'p', 'i', 'i'] [RFS_OP_OPEN]
  let [.ptr pathname _, .u32 flags, .u32 mode] := vs | none
  return ((pathname, flags, mode), e)

/-! ## write -/

def remotefsWriteWriteResponse := writeResult 'l' RFS_OP_WRITE

def remotefsWriteReadResponse := readResult 'l' RFS_OP_WRITE

def remotefsWriteWriteRequest (p : List UInt8) (fd : UInt32) (buf : Option (List UInt8))
    (count : UInt32) : Option (List UInt8) :=
  eluarpcGenWrite p ['o', 'i', 'p'] [.int RFS_OP_WRITE, .int fd, .ptr buf, .int count]

def remotefsWriteReadRequest (p : List UInt8) :
    Option ((UInt32 × Option Nat × UInt32) × ErrFlag) := do
  let (vs, e) ← eluarpcGenRead p ['o', 'i', 'p'] [RFS_OP_WRITE]
  let [.u32 fd, .ptr buf count] := vs | none
  return ((fd, buf, count), e)

/-! ## read -/

def remotefsReadWriteResponse (p : List UInt8) (readbytes : UInt32) : Option (List UInt8) :=
  eluarpcGenWrite p ['r', 'p'] [.int RFS_OP_READ, .ptr none, .int readbytes]

def remotefsReadReadResponse (p : List UInt8) :
    Option ((Option Nat × UInt32) × ErrFlag) := do
  let (vs, e) ← eluarpcGenRead p ['r', 'p'] [RFS_OP_READ]
  let [.ptr data readbytes] := vs | none
  return ((data, readbytes), e)

def remotefsReadWriteRequest (p : List UInt8) (fd count : UInt32) : Option (List UInt8) :=
  eluarpcGenWrite p ['o', 'i', 'l'] [.int RFS_OP_READ, .int fd, .int count]

def remotefsReadReadRequest (p : List UInt8) : Option ((UInt32 × UInt32) × ErrFlag) := do
  let (vs, e) ← eluarpcGenRead p ['o', 'i', 'l'] [RFS_OP_READ]
  let [.u32 fd, .u32 count] := vs | none
  return ((fd, count), e)

/-! ## close -/

def remotefsCloseWriteResponse := writeResult 'i' RFS_OP_CLOSE

def remotefsCloseReadResponse := readResult 'i' RFS_OP_CLOSE

def remotefsCloseWriteRequest := writeArg 'i' RFS_OP_CLOSE

def remotefsCloseReadRequest := readArg 'i' RFS_OP_CLOSE

/-! ## lseek -/

def remotefsLseekWriteResponse := writeResult 'L' RFS_OP_LSEEK

def remotefsLseekReadResponse := readResult 'L' RFS_OP_LSEEK

def remotefsLseekWriteRequest (p : List UInt8) (fd offset whence : UInt32) :
    Option (List UInt8) :=
  eluarpcGenWrite p ['o', 'i', 'L', 'i']
    [.int RFS_OP_LSEEK, .int fd, .int offset, .int whence]

def remotefsLseekReadRequest (p : List UInt8) :
    Option ((UInt32 × UInt32 × UInt32) × ErrFlag) := do
  let (vs, e) ← eluarpcGenRead p ['o', 'i', 'L', 'i'] [RFS_OP_LSEEK]
  let [.u32 fd, .u32 offset, .u32 whence] := vs | none
  return ((fd, offset, whence), e)

/-! ## opendir -/

def remotefsOpendirWriteResponse := writeResult 'l' RFS_OP_OPENDIR

def remotefsOpendirReadResponse := readResult 'l' RFS_OP_OPENDIR

def remotefsOpendirWriteRequest (p : List UInt8) (name : CString) : Option (List UInt8) :=
  eluarpcGenWrite p ['o', 'p']
    [.int RFS_OP_OPENDIR, .ptr (some name.bytes), .int name.size.toUInt32]

def remotefsOpendirReadRequest (p : List UInt8) : Option (Option Nat × ErrFlag) := do
  let (vs, e) ← eluarpcGenRead p ['o', 'p'] [RFS_OP_OPENDIR]
  let [.ptr name _] := vs | none
  return (name, e)

/-! ## readdir -/

def remotefsReaddirWriteResponse (p : List UInt8) (name : Option CString)
    (size ftime : UInt32) : Option (List UInt8) :=
  eluarpcGenWrite p ['r', 'p', 'l', 'l']
    [.int RFS_OP_READDIR, .ptr (name.map CString.bytes),
      .int ((name.map CString.size).getD 0).toUInt32, .int size, .int ftime]

def remotefsReaddirReadResponse (p : List UInt8) :
    Option ((Option Nat × UInt32 × UInt32) × ErrFlag) := do
  let (vs, e) ← eluarpcGenRead p ['r', 'p', 'l', 'l'] [RFS_OP_READDIR]
  let [.ptr name _, .u32 size, .u32 ftime] := vs | none
  return ((name, size, ftime), e)

def remotefsReaddirWriteRequest := writeArg 'l' RFS_OP_READDIR

def remotefsReaddirReadRequest := readArg 'l' RFS_OP_READDIR

/-! ## closedir -/

def remotefsClosedirWriteResponse := writeResult 'i' RFS_OP_CLOSEDIR

def remotefsClosedirReadResponse := readResult 'i' RFS_OP_CLOSEDIR

def remotefsClosedirWriteRequest := writeArg 'l' RFS_OP_CLOSEDIR

def remotefsClosedirReadRequest := readArg 'l' RFS_OP_CLOSEDIR

/-! ## What the codecs do on packets -/

section Packets

variable {rest : List UInt8}

/-- The reader on a packet, whatever follows it. -/
theorem genRead_packet {fmt : List Char} {fs : List Field} (hfs : DenotesAll fmt fs)
    (ids : List UInt32) (hids : ids.map (·.toUInt8) = opIds fs) (rest : List UInt8) :
    ∃ vs, eluarpcGenRead (packetBytes fs ++ rest) fmt ids = some (vs, ELUARPC_OK) ∧
      Designates (packetBytes fs ++ rest) (packetSize fs) fs vs := by
  have hat : At (packetBytes fs ++ rest) 0 (packetBytes fs) := List.prefix_append _ _
  rw [packetBytes, at_append] at hat
  exact eluarpcGenRead_of_at hfs hids hat.2

theorem denotesAll_result {c : Char} (hc : c = 'i' ∨ c = 'l' ∨ c = 'L') (op : UInt8)
    (v : UInt32) : DenotesAll ['r', c] [.response op, .int32 v] :=
  .cons (.response op) (.cons (.int32 c v hc) .nil)

theorem denotesAll_arg {c : Char} (hc : c = 'i' ∨ c = 'l' ∨ c = 'L') (op : UInt8)
    (v : UInt32) : DenotesAll ['o', c] [.op op, .int32 v] :=
  .cons (.op op) (.cons (.int32 c v hc) .nil)

theorem readResult_packet {c : Char} (hc : c = 'i' ∨ c = 'l' ∨ c = 'L') (op : UInt32)
    (id : UInt8) (hid : op.toUInt8 = id) (v : UInt32) :
    readResult c op (packetBytes [.response id, .int32 v] ++ rest) =
      some (v, ELUARPC_OK) := by
  subst hid
  obtain ⟨vs, hread, hvs⟩ := genRead_packet (denotesAll_result hc op.toUInt8 v) [op] rfl rest
  obtain ⟨_, rfl, rfl⟩ := hvs.u32
  rw [readResult, hread]
  rfl

theorem readArg_packet {c : Char} (hc : c = 'i' ∨ c = 'l' ∨ c = 'L') (op : UInt32)
    (id : UInt8) (hid : op.toUInt8 = id) (v : UInt32) :
    readArg c op (packetBytes [.op id, .int32 v] ++ rest) = some (v, ELUARPC_OK) := by
  subst hid
  obtain ⟨vs, hread, hvs⟩ := genRead_packet (denotesAll_arg hc op.toUInt8 v) [op] rfl rest
  obtain ⟨_, rfl, rfl⟩ := hvs.u32
  rw [readArg, hread]
  rfl

end Packets

end Rfs
