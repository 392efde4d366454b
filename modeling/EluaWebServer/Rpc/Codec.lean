import EluaWebServer.Lib.Buffer
import EluaWebServer.Lib.Word

/-!
# The eluarpc packet codec

`eluarpc_gen_write` and `eluarpc_gen_read` walk a format string over the
specifiers `o r c h i l L p P` and write or read one tagged field for each of
them, between a start and an end marker.  All pointers of the C code point
into one packet buffer and are modelled as offsets into it: a store or a load
outside the buffer is `none`, and an offset past it stays there (a pointer that
leaves its object has no defined way back).  A 32-bit variable (`int`, `u32`, `s32`) is its
32 bits, a `UInt32`.
-/

namespace Rpc

def PACKET_SIG : UInt32 := 0x18AFC284

def ELUARPC_OP_RES_MOD : UInt8 := 0x80

def ELUARPC_START_OFFSET : Nat := 4
def ELUARPC_PTR_HEADER_SIZE : Nat := 6
def ELUARPC_SMALL_PTR_HEADER_SIZE : Nat := 4

def TYPE_INT_8 : UInt8 := 0x01
def TYPE_INT_16 : UInt8 := 0x02
def TYPE_INT_32 : UInt8 := 0x03
def TYPE_PTR : UInt8 := 0x04
def TYPE_START : UInt8 := 0x05
def TYPE_END : UInt8 := 0x06
def TYPE_OP_ID : UInt8 := 0x07
def TYPE_SMALL_PTR : UInt8 := 0x08
def TYPE_PKT_SIZE : UInt8 := 0xA5

/-- The value of `eluarpc_err_flag`. -/
inductive ErrFlag where
  | ELUARPC_OK
  | ELUARPC_ERR
  deriving DecidableEq, Repr

export ErrFlag (ELUARPC_OK ELUARPC_ERR)

/-! ## Serialisation -/

/-- The packet buffer and the write pointer `p` into it. -/
structure Writer where
  mem : List UInt8
  p : Nat
  deriving DecidableEq, Repr

/-- `*p ++ = fdata`. -/
def Writer.put (w : Writer) (fdata : UInt8) : Option Writer :=
  (Buffer.store w.mem w.p fdata).map fun mem => ⟨mem, w.p + 1⟩

/-- `*p ++ = ...` for a run of bytes; also `memcpy( p, src, n ); p + n`. -/
def Writer.putAll (w : Writer) (xs : List UInt8) : Option Writer :=
  (Buffer.storeAll w.mem w.p xs).map fun mem => ⟨mem, w.p + xs.length⟩

def eluarpcWriteU8 (w : Writer) (fdata : UInt8) : Option Writer := do
  let w ← w.put TYPE_INT_8
  w.put fdata

def eluarpcWriteOpId (w : Writer) (fdata : UInt8) : Option Writer := do
  let w ← w.put TYPE_OP_ID
  w.put fdata

def eluarpcWriteU16 (w : Writer) (fdata : UInt16) : Option Writer := do
  let w ← w.put TYPE_INT_16
  let w ← w.put (fdata &&& 0xFF).toUInt8
  w.put ((fdata >>> 8) &&& 0xFF).toUInt8

def eluarpcWriteU32 (w : Writer) (fdata : UInt32) : Option Writer := do
  let w ← w.put TYPE_INT_32
  let w ← w.put (fdata &&& 0xFF).toUInt8
  let w ← w.put ((fdata >>> 8) &&& 0xFF).toUInt8
  let w ← w.put ((fdata >>> 16) &&& 0xFF).toUInt8
  w.put ((fdata >>> 24) &&& 0xFF).toUInt8

/-- `if( src ) memcpy( p, src, srclen ); return p + srclen;`.  A source
object shorter than `srclen` is read out of bounds. -/
def eluarpcCopySrc (w : Writer) (src : Option (List UInt8)) (srclen : Nat) :
    Option Writer :=
  match src with
  | some d => if srclen ≤ d.length then w.putAll (d.take srclen) else none
  | none => some { w with p := w.p + srclen }

def eluarpcWritePtr (w : Writer) (src : Option (List UInt8)) (srclen : UInt32) :
    Option Writer := do
  let w ← w.put TYPE_PTR
  let w ← eluarpcWriteU32 w srclen
  eluarpcCopySrc w src srclen.toNat

def eluarpcWriteSmallPtr (w : Writer) (src : Option (List UInt8)) (srclen : UInt16) :
    Option Writer := do
  let w ← w.put TYPE_SMALL_PTR
  let w ← eluarpcWriteU16 w srclen
  eluarpcCopySrc w src srclen.toNat

/-- One variadic argument of `eluarpc_gen_write`: an integer, or a pointer
that is `NULL` or designates the bytes of an object. -/
inductive VaArg where
  | int (v : UInt32)
  | ptr (src : Option (List UInt8))
  deriving DecidableEq, Repr

/-- One round of the `switch` of `eluarpc_gen_write`: the field of specifier
`c`, with the arguments left after it.  A character that is no specifier has
no case and writes nothing. -/
def eluarpcWriteField (w : Writer) (c : Char) (ap : List VaArg) :
    Option (Writer × List VaArg) :=
  match c, ap with
  | 'o', .int v :: ap => (eluarpcWriteOpId w v.toUInt8).map (·, ap)
  | 'r', .int v :: ap => (w.put (ELUARPC_OP_RES_MOD ||| v.toUInt8)).map (·, ap)
  | 'c', .int v :: ap => (eluarpcWriteU8 w v.toUInt8).map (·, ap)
  | 'h', .int v :: ap => (eluarpcWriteU16 w v.toUInt16).map (·, ap)
  | 'i', .int v :: ap => (eluarpcWriteU32 w v).map (·, ap)
  | 'l', .int v :: ap => (eluarpcWriteU32 w v).map (·, ap)
  | 'L', .int v :: ap => (eluarpcWriteU32 w v).map (·, ap)
  | 'p', .ptr src :: .int n :: ap => (eluarpcWritePtr w src n).map (·, ap)
  | 'P', .ptr src :: .int n :: ap => (eluarpcWriteSmallPtr w src n.toUInt16).map (·, ap)
  | c, ap => if c ∈ ['o', 'r', 'c', 'h', 'i', 'l', 'L', 'p', 'P'] then none else some (w, ap)

/-- `while( *fmt ) switch( *fmt ++ )` of `eluarpc_gen_write`. -/
def eluarpcWriteFields (w : Writer) : List Char → List VaArg → Option Writer
  | [], _ => some w
  | c :: fmt, ap => do
      let (w, ap) ← eluarpcWriteField w c ap
      eluarpcWriteFields w fmt ap

def eluarpcStartPacket (mem : List UInt8) : Option Writer := do
  let w ← Writer.put ⟨mem, ELUARPC_START_OFFSET⟩ TYPE_START
  eluarpcWriteU32 w PACKET_SIG

/-- The end marker, and the size header patched in at `eluarpc_packet_ptr`. -/
def eluarpcEndPacket (w : Writer) : Option Writer := do
  let w ← w.put TYPE_END
  let w ← eluarpcWriteU32 w (~~~ PACKET_SIG)
  let len := w.p.toUInt16
  let w ← Writer.put ⟨w.mem, 0⟩ TYPE_PKT_SIZE
  eluarpcWriteU16 w len

def eluarpcGenWrite (mem : List UInt8) (fmt : List Char) (ap : List VaArg) :
    Option (List UInt8) := do
  let w ← eluarpcStartPacket mem
  let w ← eluarpcWriteFields w fmt ap
  let w ← eluarpcEndPacket w
  return w.mem

/-! ## Deserialisation -/

/-- The read pointer `p` and `eluarpc_err_flag`. -/
structure Reader where
  p : Nat
  err : ErrFlag
  deriving DecidableEq, Repr

/-- `*p ++`, an out-of-bounds read being `none`. -/
def Reader.next (buf : List UInt8) (r : Reader) : Option (UInt8 × Reader) :=
  buf[r.p]?.map fun b => (b, { r with p := r.p + 1 })

def eluarpcReadExpect (buf : List UInt8) (r : Reader) (fdata : UInt8) : Option Reader := do
  let (b, r) ← r.next buf
  return if b ≠ fdata then { r with err := ELUARPC_ERR } else r

def eluarpcReadU8 (buf : List UInt8) (r : Reader) : Option (UInt8 × Reader) := do
  let r ← eluarpcReadExpect buf r TYPE_INT_8
  r.next buf

def eluarpcReadOpId (buf : List UInt8) (r : Reader) : Option (UInt8 × Reader) := do
  let r ← eluarpcReadExpect buf r TYPE_OP_ID
  r.next buf

def eluarpcExpectOpId (buf : List UInt8) (r : Reader) (id : UInt8) : Option Reader := do
  let r ← eluarpcReadExpect buf r TYPE_OP_ID
  let (temp, r) ← r.next buf
  return if temp ≠ id then { r with err := ELUARPC_ERR } else r

def eluarpcReadU16 (buf : List UInt8) (r : Reader) : Option (UInt16 × Reader) := do
  let r ← eluarpcReadExpect buf r TYPE_INT_16
  let (b0, r) ← r.next buf
  let (b1, r) ← r.next buf
  return (b0.toUInt16 ||| b1.toUInt16 <<< 8, r)

def eluarpcReadU32 (buf : List UInt8) (r : Reader) : Option (UInt32 × Reader) := do
  let r ← eluarpcReadExpect buf r TYPE_INT_32
  let (b0, r) ← r.next buf
  let (b1, r) ← r.next buf
  let (b2, r) ← r.next buf
  let (b3, r) ← r.next buf
  return (b0.toUInt32 ||| b1.toUInt32 <<< 8 ||| b2.toUInt32 <<< 16 ||| b3.toUInt32 <<< 24, r)

/-- `eluarpc_read_ptr` as `eluarpc_gen_read` calls it, with a `NULL` target:
nothing is copied and the pointer moves past the embedded length. -/
def eluarpcReadPtr (buf : List UInt8) (r : Reader) : Option (UInt32 × Reader) := do
  let r ← eluarpcReadExpect buf r TYPE_PTR
  let (n, r) ← eluarpcReadU32 buf r
  return (n, { r with p := r.p + n.toNat })

def eluarpcReadSmallPtr (buf : List UInt8) (r : Reader) : Option (UInt16 × Reader) := do
  let r ← eluarpcReadExpect buf r TYPE_SMALL_PTR
  let (n, r) ← eluarpcReadU16 buf r
  return (n, { r with p := r.p + n.toNat })

/-- What `eluarpc_gen_read` stores through its pointer arguments, one for
each specifier other than `o` and `r`.  A pointer into the packet is its
offset; `none` is `NULL`. -/
inductive Value where
  | u8 (v : UInt8)
  | u16 (v : UInt16)
  | u32 (v : UInt32)
  | ptr (off : Option Nat) (len : UInt32)
  | smallPtr (off : Option Nat) (len : UInt16)
  deriving DecidableEq, Repr

/-- One round of the `switch` of `eluarpc_gen_read`.  `ids` are the integer
arguments of the `o` and `r` specifiers that are still to come. -/
def eluarpcReadField (buf : List UInt8) (r : Reader) (c : Char) (ids : List UInt32) :
    Option (List Value × Reader × List UInt32) :=
  match c, ids with
  | 'o', id :: ids => (eluarpcExpectOpId buf r id.toUInt8).map ([], ·, ids)
  | 'r', id :: ids =>
      (eluarpcReadExpect buf r (ELUARPC_OP_RES_MOD ||| id.toUInt8)).map ([], ·, ids)
  | 'o', [] => none
  | 'r', [] => none
  | 'c', ids => (eluarpcReadU8 buf r).map fun (v, r) => ([.u8 v], r, ids)
  | 'h', ids => (eluarpcReadU16 buf r).map fun (v, r) => ([.u16 v], r, ids)
  | 'l', ids => (eluarpcReadU32 buf r).map fun (v, r) => ([.u32 v], r, ids)
  | 'L', ids => (eluarpcReadU32 buf r).map fun (v, r) => ([.u32 v], r, ids)
  | 'i', ids => (eluarpcReadU32 buf r).map fun (v, r) => ([.u32 v], r, ids)
  | 'p', ids => (eluarpcReadPtr buf r).map fun (n, r') =>
      let off := if r'.p = r.p + ELUARPC_PTR_HEADER_SIZE then none
        else some (r.p + ELUARPC_PTR_HEADER_SIZE)
      ([.ptr off n], r', ids)
  | 'P', ids => (eluarpcReadSmallPtr buf r).map fun (n, r') =>
      let off := if r'.p = r.p + ELUARPC_SMALL_PTR_HEADER_SIZE then none
        else some (r.p + ELUARPC_SMALL_PTR_HEADER_SIZE)
      ([.smallPtr off n], r', ids)
  | _, ids => some ([], r, ids)

/-- `while( *fmt ) switch( *fmt ++ )` of `eluarpc_gen_read`. -/
def eluarpcReadFields (buf : List UInt8) (r : Reader) :
    List Char → List UInt32 → Option (List Value × Reader)
  | [], _ => some ([], r)
  | c :: fmt, ids => do
      let (vs, r, ids) ← eluarpcReadField buf r c ids
      let (vs', r) ← eluarpcReadFields buf r fmt ids
      return (vs ++ vs', r)

def eluarpcMatchPacketStart (buf : List UInt8) (r : Reader) : Option Reader := do
  let r := { r with p := r.p + ELUARPC_START_OFFSET }
  let r ← eluarpcReadExpect buf r TYPE_START
  let (fdata, r) ← eluarpcReadU32 buf r
  return if fdata ≠ PACKET_SIG then { r with err := ELUARPC_ERR } else r

def eluarpcMatchPacketEnd (buf : List UInt8) (r : Reader) : Option Reader := do
  let r ← eluarpcReadExpect buf r TYPE_END
  let (fdata, r) ← eluarpcReadU32 buf r
  return if fdata ≠ ~~~ PACKET_SIG then { r with err := ELUARPC_ERR } else r

/-- The decoded values and the returned error flag. -/
def eluarpcGenRead (buf : List UInt8) (fmt : List Char) (ids : List UInt32) :
    Option (List Value × ErrFlag) := do
  let r ← eluarpcMatchPacketStart buf ⟨0, ELUARPC_OK⟩
  let (vs, r) ← eluarpcReadFields buf r fmt ids
  let r ← eluarpcMatchPacketEnd buf r
  return (vs, r.err)

def eluarpcGetRequestId (buf : List UInt8) : Option (UInt8 × ErrFlag) := do
  let r ← eluarpcMatchPacketStart buf ⟨0, ELUARPC_OK⟩
  let (id, r) ← eluarpcReadOpId buf r
  return (id, r.err)

def eluarpcGetPacketSize (buf : List UInt8) : Option (UInt16 × ErrFlag) := do
  let r ← eluarpcReadExpect buf ⟨0, ELUARPC_OK⟩ TYPE_PKT_SIZE
  let (size, r) ← eluarpcReadU16 buf r
  return (size, r.err)

def eluarpcReplaceFlag (val origflag newflag : UInt32) : UInt32 :=
  if val &&& origflag ≠ 0 then newflag else 0

end Rpc
