import EluaWebServer.Rfs.Server

/-!
# The remote file system client

Each `rfsc_*` function writes a request into the client's packet buffer,
exchanges it for a response over the link and decodes the response from the
same buffer.  The link is a parameter: the bytes that come back for the bytes
that were sent.
-/

namespace Rfs

open Rpc

/-- What `rfsch_send_request_read_response` returns. -/
inductive ClientStatus where
  | CLIENT_OK
  | CLIENT_ERR
  deriving DecidableEq, Repr

export ClientStatus (CLIENT_OK CLIENT_ERR)

/-- The log of the client's buffer size, `BUF_SIZE_512` on every platform. -/
def RFS_BUFFER_SIZE : Nat := 9

/-- The size of the client's `rfs_buffer`. -/
def clientBufferSize : Nat := 1 <<< RFS_BUFFER_SIZE

/-- A link gives the bytes that arrive before the timeout for the bytes sent;
`none` when the peer has gone wrong. -/
abbrev Link := List UInt8 → Option (List UInt8)

/-- The receive buffer is empty before the request is sent. -/
def rfschSendRequestReadResponse (link : Link) (buf : List UInt8) :
    Option (ClientStatus × List UInt8) := do
  let (temp16, e) ← eluarpcGetPacketSize buf
  if e = ELUARPC_ERR then
    return (CLIENT_ERR, buf)
  if buf.length < temp16.toNat then
    none
  let stream ← link (buf.take temp16.toNat)
  let buf ← Buffer.storeAll buf 0 (stream.take ELUARPC_START_OFFSET)
  if stream.length < ELUARPC_START_OFFSET then
    return (CLIENT_ERR, buf)
  let (temp16, e) ← eluarpcGetPacketSize buf
  if e = ELUARPC_ERR then
    return (CLIENT_ERR, buf)
  let rest := (stream.drop ELUARPC_START_OFFSET).take (bytesAfterHeader temp16)
  let buf ← Buffer.storeAll buf ELUARPC_START_OFFSET rest
  if rest.length ≠ bytesAfterHeader temp16 then
    return (CLIENT_ERR, buf)
  return (CLIENT_OK, buf)

/-- The `O_*` constants of the target's C library. -/
structure OpenFlags where
  O_APPEND : UInt32
  O_CREAT : UInt32
  O_EXCL : UInt32
  O_TRUNC : UInt32
  O_SYNC : UInt32
  O_RDONLY : UInt32
  O_WRONLY : UInt32
  O_RDWR : UInt32

def osOpenSysFlagsToRfsFlags (o : OpenFlags) (sysflags : UInt32) : UInt32 :=
  eluarpcReplaceFlag sysflags o.O_APPEND RFS_OPEN_FLAG_APPEND |||
    eluarpcReplaceFlag sysflags o.O_CREAT RFS_OPEN_FLAG_CREAT |||
    eluarpcReplaceFlag sysflags o.O_EXCL RFS_OPEN_FLAG_EXCL |||
    eluarpcReplaceFlag sysflags o.O_TRUNC RFS_OPEN_FLAG_TRUNC |||
    eluarpcReplaceFlag sysflags o.O_SYNC RFS_OPEN_FLAG_SYNC |||
    eluarpcReplaceFlag sysflags o.O_RDONLY RFS_OPEN_FLAG_RDONLY |||
    eluarpcReplaceFlag sysflags o.O_WRONLY RFS_OPEN_FLAG_WRONLY |||
    eluarpcReplaceFlag sysflags o.O_RDWR RFS_OPEN_FLAG_RDWR

def SEEK_SET : UInt32 := 0
def SEEK_CUR : UInt32 := 1
def SEEK_END : UInt32 := 2

def osLseekSysWhenceToRfsWhence (syswhence : UInt32) : UInt32 :=
  if syswhence = SEEK_SET then RFS_LSEEK_SET
  else if syswhence = SEEK_CUR then RFS_LSEEK_CUR
  else if syswhence = SEEK_END then RFS_LSEEK_END
  else 0

section Calls

variable (link : Link)

/-- The common shape of a client function: the request is in `buf`; `failed`
is returned when the exchange or the decoding of the response fails. -/
def exchange {α : Type} (buf : Option (List UInt8)) (failed : α)
    (decode : List UInt8 → Option (α × ErrFlag)) : Option α := do
  let buf ← buf
  let (status, buf) ← rfschSendRequestReadResponse link buf
  if status = CLIENT_ERR then
    return failed
  let (result, e) ← decode buf
  if e = ELUARPC_ERR then
    return failed
  return result

def rfscOpen (o : OpenFlags) (rfscBuffer : List UInt8) (pathname : CString)
    (flags mode : UInt32) : Option UInt32 :=
  exchange link
    (remotefsOpenWriteRequest rfscBuffer pathname (osOpenSysFlagsToRfsFlags o flags) mode)
    minusOne remotefsOpenReadResponse

def rfscWrite (rfscBuffer : List UInt8) (fd : UInt32) (buf : Option (List UInt8))
    (count : UInt32) : Option UInt32 :=
  exchange link (remotefsWriteWriteRequest rfscBuffer fd buf count) minusOne
    remotefsWriteReadResponse

/-- The bytes that `rfsc_read` copies out of the response. -/
def copyRead (buf : List UInt8) : Option ((UInt32 × List UInt8) × ErrFlag) := do
  let ((resbuf, count), e) ← remotefsReadReadResponse buf
  return ((count, (resbuf.map fun off => Buffer.slice buf off count.toNat).getD []), e)

/-- The result and the bytes stored through the caller's pointer. -/
def rfscRead (rfscBuffer : List UInt8) (fd count : UInt32) :
    Option (UInt32 × List UInt8) :=
  exchange link (remotefsReadWriteRequest rfscBuffer fd count) (minusOne, []) copyRead

def rfscLseek (rfscBuffer : List UInt8) (fd offset whence : UInt32) : Option UInt32 :=
  exchange link
    (remotefsLseekWriteRequest rfscBuffer fd offset (osLseekSysWhenceToRfsWhence whence))
    minusOne remotefsLseekReadResponse

def rfscClose (rfscBuffer : List UInt8) (fd : UInt32) : Option UInt32 :=
  exchange link (remotefsCloseWriteRequest rfscBuffer fd) minusOne remotefsCloseReadResponse

def rfscOpendir (rfscBuffer : List UInt8) (name : CString) : Option UInt32 :=
  exchange link (remotefsOpendirWriteRequest rfscBuffer name) 0 remotefsOpendirReadResponse

/-- The entry that `rfsc_readdir` reports: a `NULL` name is the end of the
directory, whatever the other results are. -/
def readEntry (buf : List UInt8) :
    Option (Option (List UInt8 × UInt32) × ErrFlag) := do
  let ((name, size, _ftime), e) ← remotefsReaddirReadResponse buf
  match name with
  | none => return (none, e)
  | some off =>
      let chars ← cstringAt buf off
      return (some (chars, size), e)

def rfscReaddir (rfscBuffer : List UInt8) (d : UInt32) :
    Option (Option (List UInt8 × UInt32)) :=
  exchange link (remotefsReaddirWriteRequest rfscBuffer d) none readEntry

def rfscClosedir (rfscBuffer : List UInt8) (d : UInt32) : Option UInt32 :=
  exchange link (remotefsClosedirWriteRequest rfscBuffer d) minusOne
    remotefsClosedirReadResponse

end Calls

end Rfs
