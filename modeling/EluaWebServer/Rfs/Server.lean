import EluaWebServer.Rfs.RemoteFs

/-!
# The remote file system server

`server_execute_request` decodes the request in the packet buffer, calls the
host through `os_io.h` and writes the response into the same buffer.  The
host is a parameter: any results of the `os_*` functions.
-/

namespace Rfs

open Rpc

/-- The value of `fd` and of the `os_*` calls that means failure. -/
def minusOne : UInt32 := 0xFFFFFFFF

/-- The host functions of `os_io.h`.  `read` gives the bytes read, or `none`
for -1; it never returns more than it was asked for.  `readdir` gives the name
of the next regular file, which `os_readdir` has cut to `RFS_MAX_FNAME_SIZE`
characters. -/
structure OsIo where
  open_ : List UInt8 → UInt32 → UInt32 → UInt32
  write : UInt32 → List UInt8 → UInt32
  read : UInt32 → UInt32 → Option (List UInt8)
  close : UInt32 → UInt32
  lseek : UInt32 → UInt32 → UInt32 → UInt32
  opendir : List UInt8 → UInt32
  readdir : UInt32 → Option CString
  closedir : UInt32 → UInt32
  read_le : ∀ fd count d, read fd count = some d → d.length ≤ count.toNat
  readdir_le : ∀ d name, readdir d = some name → name.chars.length ≤ RFS_MAX_FNAME_SIZE

/-- The bound of `OsIo.read_le` on a host that reads nothing. -/
theorem read_none_le (_ count : UInt32) (d : List UInt8) (h : none = some d) :
    d.length ≤ count.toNat := by
  cases h

/-- What a request handler returns. -/
inductive ServerStatus where
  | SERVER_OK
  | SERVER_ERR
  deriving DecidableEq, Repr

export ServerStatus (SERVER_OK SERVER_ERR)

def PLATFORM_PATH_SEPARATOR : UInt8 := 47

def PLATFORM_MAX_FNAME_LEN : Nat := 2048

/-- `strncat( dst, src, n )` on the string in an array of `cap` bytes. -/
def strncat (cap : Nat) (dst src : List UInt8) (n : Nat) : Option (List UInt8) :=
  if dst.length + (src.take n).length < cap then some (dst ++ src.take n) else none

/-- The contents of `server_fullname` for a file name.  An empty base
directory is read at index -1. -/
def serverFullname (basedir filename : List UInt8) : Option (List UInt8) := do
  let full := basedir.take PLATFORM_MAX_FNAME_LEN
  if filename.length > 0 then
    let last ← full.getLast?
    let full ←
      if last ≠ PLATFORM_PATH_SEPARATOR then
        strncat (PLATFORM_MAX_FNAME_LEN + 1) full [PLATFORM_PATH_SEPARATOR]
          PLATFORM_MAX_FNAME_LEN
      else some full
    strncat (PLATFORM_MAX_FNAME_LEN + 1) full filename PLATFORM_MAX_FNAME_LEN
  else
    return full

/-- `filename && strlen( filename ) > 0`: a `NULL` name counts as an empty
one. -/
def requestName (p : List UInt8) : Option Nat → Option (List UInt8)
  | none => some []
  | some off => cstringAt p off

section Handlers

variable (os : OsIo) (basedir : List UInt8)

/-- A handler leaves the buffer alone when the request cannot be read, and
otherwise leaves its response there. -/
def respond (e : ErrFlag) (p : List UInt8) (response : Option (List UInt8)) :
    Option (ServerStatus × List UInt8) :=
  match e with
  | ELUARPC_ERR => some (SERVER_ERR, p)
  | ELUARPC_OK => response.map (SERVER_OK, ·)

def serverOpen (p : List UInt8) : Option (ServerStatus × List UInt8) := do
  let ((filename, flags, mode), e) ← remotefsOpenReadRequest p
  respond e p do
    let filename ← requestName p filename
    let fullname ← serverFullname basedir filename
    let fd := os.open_ fullname flags mode
    remotefsOpenWriteResponse p fd

def serverWrite (p : List UInt8) : Option (ServerStatus × List UInt8) := do
  let ((fd, buf, count), e) ← remotefsWriteReadRequest p
  respond e p do
    let data := (buf.map fun off => Buffer.slice p off count.toNat).getD []
    let count := os.write fd data
    remotefsWriteWriteResponse p count

/-- `ELUARPC_READ_BUF_OFFSET`, where the data of a read response stands. -/
def ELUARPC_READ_BUF_OFFSET : Nat := 17

/-- `os_read` into the packet: the host stores the bytes it has read directly
where the response has its data. -/
def serverReadData (p : List UInt8) (fd count : UInt32) : Option (List UInt8 × UInt32) :=
  match os.read fd count with
  | none => some (p, minusOne)
  | some d => (Buffer.storeAll p ELUARPC_READ_BUF_OFFSET d).map (·, d.length.toUInt32)

def serverRead (p : List UInt8) : Option (ServerStatus × List UInt8) := do
  let ((fd, count), e) ← remotefsReadReadRequest p
  respond e p do
    let (p, count) ← serverReadData os p fd count
    remotefsReadWriteResponse p count

def serverClose (p : List UInt8) : Option (ServerStatus × List UInt8) := do
  let (fd, e) ← remotefsCloseReadRequest p
  respond e p do
    let fd := os.close fd
    remotefsCloseWriteResponse p fd

def serverLseek (p : List UInt8) : Option (ServerStatus × List UInt8) := do
  let ((fd, offset, whence), e) ← remotefsLseekReadRequest p
  respond e p do
    let offset := os.lseek fd offset whence
    remotefsLseekWriteResponse p offset

def serverOpendir (p : List UInt8) : Option (ServerStatus × List UInt8) := do
  let (name, e) ← remotefsOpendirReadRequest p
  respond e p do
    let name ← requestName p name
    let fullname ← serverFullname basedir name
    let d := os.opendir fullname
    remotefsOpendirWriteResponse p d

/-- The name and size of the next entry.  `if( fd )` takes descriptor 0 for a
failure to open and -1 for a success. -/
def serverReaddirEntry (d : UInt32) : Option (Option CString × UInt32) :=
  match os.readdir d with
  | none => some (none, 0)
  | some name => do
      let fullname ← serverFullname basedir name.chars
      let fd := os.open_ fullname RFS_OPEN_FLAG_RDONLY 0
      if fd ≠ 0 then
        return (some name, os.lseek fd 0 RFS_LSEEK_END)
      else
        return (none, 0)

def serverReaddir (p : List UInt8) : Option (ServerStatus × List UInt8) := do
  let (d, e) ← remotefsReaddirReadRequest p
  respond e p do
    let (name, fsize) ← serverReaddirEntry os basedir d
    remotefsReaddirWriteResponse p name fsize 0

/-- The response carries `d`, not the result of `os_closedir`. -/
def serverClosedir (p : List UInt8) : Option (ServerStatus × List UInt8) := do
  let (d, e) ← remotefsClosedirReadRequest p
  respond e p do
    let _res := os.closedir d
    remotefsClosedirWriteResponse p d

def serverHandlers : List (List UInt8 → Option (ServerStatus × List UInt8)) :=
  [serverOpen os basedir, serverWrite os, serverRead os, serverClose os, serverLseek os,
    serverOpendir os basedir, serverReaddir os basedir, serverClosedir os]

def serverExecuteRequest (p : List UInt8) : Option (ServerStatus × List UInt8) := do
  let (req, e) ← eluarpcGetRequestId p
  if e = ELUARPC_ERR then
    return (SERVER_ERR, p)
  if RFS_OP_FIRST.toUInt8 ≤ req ∧ req ≤ RFS_OP_LAST.toUInt8 then
    let handler ← (serverHandlers os basedir)[(req - RFS_OP_FIRST.toUInt8).toNat]?
    handler p
  else
    return (SERVER_ERR, p)

end Handlers

/-! ## The server's buffer -/

def MAX_PACKET_SIZE : Nat := 4096

def ELUARPC_WRITE_REQUEST_EXTRA : Nat := 29

/-- The size of the server's `rfs_buffer`. -/
def serverBufferSize : Nat := MAX_PACKET_SIZE + ELUARPC_WRITE_REQUEST_EXTRA

/-- The bytes after the size header that `ser_read` is asked for;
`temp16 - ELUARPC_START_OFFSET` is converted to `u32`. -/
def bytesAfterHeader (size : UInt16) : Nat :=
  (size.toUInt32 - ELUARPC_START_OFFSET.toUInt32).toNat

/-- One round of `ser_read_request_packet` on the bytes that arrive; `some
none` when no packet could be read. -/
def serReadRequestPacket (mem stream : List UInt8) : Option (Option (List UInt8)) := do
  let mem ← Buffer.storeAll mem 0 (stream.take ELUARPC_START_OFFSET)
  if stream.length < ELUARPC_START_OFFSET then
    return none
  let (size, e) ← eluarpcGetPacketSize mem
  if e = ELUARPC_ERR then
    return none
  let rest := (stream.drop ELUARPC_START_OFFSET).take (bytesAfterHeader size)
  let mem ← Buffer.storeAll mem ELUARPC_START_OFFSET rest
  if rest.length ≠ bytesAfterHeader size then
    return none
  return some mem

/-- `ser_send_response_packet`: the bytes that are sent. -/
def serSendResponsePacket (mem : List UInt8) : Option (List UInt8) := do
  let (size, e) ← eluarpcGetPacketSize mem
  if e = ELUARPC_ERR then
    return []
  if size.toNat ≤ mem.length then some (mem.take size.toNat) else none

/-- One round of the server's main loop: the bytes it sends back for the bytes
that arrive.  The result of `server_execute_request` is not looked at. -/
def serveRequest (os : OsIo) (basedir mem stream : List UInt8) : Option (List UInt8) := do
  match ← serReadRequestPacket mem stream with
  | none => return []
  | some mem =>
      let (_, mem) ← serverExecuteRequest os basedir mem
      serSendResponsePacket mem

end Rfs
