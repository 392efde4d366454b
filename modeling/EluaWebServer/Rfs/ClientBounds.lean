import EluaWebServer.Rfs.Chunks
import EluaWebServer.Rfs.Bounds

/-!
# What the client accesses outside of its buffer

A client function writes its request into `rfs_buffer` and receives the response in the same
place.  Only the chunks of `rfs_read_r` and `rfs_write_r` are sized for the buffer: the length of a
path, the size of a response and the length in the response to a read are used as they come.
-/

namespace Rfs

open Rpc Buffer

/-! ## The packet codec outside of a buffer -/

/-- A packet that does not fit is written past the end of the buffer. -/
theorem eluarpcGenWrite_eq_none {fmt : List Char} {ap : List VaArg} {fs : List Field}
    (h : fields? fmt ap = some fs) {mem : List UInt8} (hmem : mem.length < packetSize fs) :
    eluarpcGenWrite mem fmt ap = none := by
  have hbody : ((eluarpcStartPacket mem).bind fun w => eluarpcWriteFields w fmt ap) =
      Writer.putAll ⟨mem, 4⟩
        ((TYPE_START :: TYPE_INT_32 :: Word.bytes32 PACKET_SIG) ++ fieldsBytes fs) := by
    rw [eluarpcStartPacket_eq, ← Writer.putAll_bind]
    simp only [eluarpcWriteFields_eq h]
  have hlen : (TYPE_START :: TYPE_INT_32 :: Word.bytes32 PACKET_SIG ++ fieldsBytes fs).length =
      6 + (fieldsBytes fs).length := by
    rw [List.length_append]
    rfl
  have hne : TYPE_START :: TYPE_INT_32 :: Word.bytes32 PACKET_SIG ++ fieldsBytes fs ≠ [] :=
    List.cons_ne_nil _ _
  unfold packetSize at hmem
  simp only [eluarpcGenWrite, Option.bind_eq_bind]
  rw [← Option.bind_assoc, hbody, Writer.putAll]
  generalize TYPE_START :: TYPE_INT_32 :: Word.bytes32 PACKET_SIG ++ fieldsBytes fs = xs at *
  by_cases hroom : 4 + xs.length ≤ mem.length
  · -- there is no room for the end marker
    have hend : (splice mem 4 xs).length < 4 + xs.length + 6 := by
      rw [splice_length hroom]
      omega
    rw [storeAll_eq_splice hroom, Option.map_some, Option.bind_some,
      eluarpcEndPacket_eq_none hend, Option.bind_none]
  · have hover : mem.length < 4 + xs.length := Nat.lt_of_not_le hroom
    rw [storeAll_eq_none hover hne]
    rfl

/-- The value that is decoded for a specifier. -/
def Value.DecodedFor : Char → Value → Prop
  | 'c', .u8 _ => True
  | 'h', .u16 _ => True
  | 'i', .u32 _ => True
  | 'l', .u32 _ => True
  | 'L', .u32 _ => True
  | 'p', .ptr _ _ => True
  | 'P', .smallPtr _ _ => True
  | _, _ => False

theorem Value.DecodedFor.ptr {v : Value} (h : Value.DecodedFor 'p' v) :
    ∃ off len, v = .ptr off len := by
  cases v with
  | ptr off len => exact ⟨off, len, rfl⟩
  | u8 | u16 | u32 | smallPtr => cases h

theorem Value.DecodedFor.u32 {v : Value} (h : Value.DecodedFor 'l' v) : ∃ w, v = .u32 w := by
  cases v with
  | u32 w => exact ⟨w, rfl⟩
  | u8 | u16 | ptr | smallPtr => cases h

theorem eluarpcReadField_decoded {buf : List UInt8} {r r' : Reader} {c : Char}
    {ids ids' : List UInt32} {vs : List Value}
    (h : eluarpcReadField buf r c ids = some (vs, r', ids')) :
    List.Forall₂ Value.DecodedFor ([c].filter takesValue) vs := by
  unfold eluarpcReadField at h
  split at h
  case h_3 | h_4 => cases h
  case h_1 | h_2 =>
      obtain ⟨_, -, heq⟩ := Option.map_eq_some_iff.mp h
      obtain ⟨rfl, -⟩ := Prod.mk.inj heq
      exact .nil
  case h_5 | h_6 | h_7 | h_8 | h_9 | h_10 | h_11 =>
      obtain ⟨_, -, heq⟩ := Option.map_eq_some_iff.mp h
      obtain ⟨rfl, -⟩ := Prod.mk.inj heq
      exact .cons trivial .nil
  case h_12 ho hr hr' hc hh hl hL hi hp hP =>
      obtain ⟨rfl, -⟩ := Prod.mk.inj (Option.some.inj h)
      have hnot : takesValue c = false := by
        simp only [takesValue, decide_eq_false_iff_not, List.mem_cons, List.not_mem_nil, or_false]
        rintro (rfl | rfl | rfl | rfl | rfl | rfl | rfl) <;> contradiction
      rw [List.filter_singleton, hnot]
      exact .nil

/-- The decoded values are those of the format, whatever the bytes are. -/
theorem eluarpcReadFields_decoded {buf : List UInt8} {fmt : List Char} {r r' : Reader}
    {ids : List UInt32} {vs : List Value} (h : eluarpcReadFields buf r fmt ids = some (vs, r')) :
    List.Forall₂ Value.DecodedFor (fmt.filter takesValue) vs := by
  induction fmt generalizing r ids vs with
  | nil =>
      obtain ⟨rfl, -⟩ := Prod.mk.inj (Option.some.inj h)
      exact .nil
  | cons c fmt ih =>
      simp only [eluarpcReadFields, Option.bind_eq_bind, Option.bind_eq_some_iff, Prod.exists,
        Option.pure_def, Option.some.injEq, Prod.mk.injEq] at h
      obtain ⟨vs₁, r₁, ids₁, hfield, vs₂, r₂, hfields, rfl, rfl⟩ := h
      rw [← List.singleton_append, List.filter_append]
      exact List.rel_append (eluarpcReadField_decoded hfield) (ih hfields)

theorem eluarpcGenRead_decoded {buf : List UInt8} {fmt : List Char} {ids : List UInt32}
    {vs : List Value} {e : ErrFlag} (h : eluarpcGenRead buf fmt ids = some (vs, e)) :
    List.Forall₂ Value.DecodedFor (fmt.filter takesValue) vs := by
  simp only [eluarpcGenRead, Option.bind_eq_bind, Option.bind_eq_some_iff, Prod.exists,
    Option.pure_def, Option.some.injEq, Prod.mk.injEq] at h
  obtain ⟨r₁, -, vs', r₂, hfields, r₃, -, rfl, -⟩ := h
  exact eluarpcReadFields_decoded hfields

/-! ## The calls of the client -/

/-- What arrives during a call: bytes that have come too late for an earlier one, and the bytes
that the peer sends for this one. -/
structure Incoming where
  late : List UInt8
  answer : List UInt8

/-- `while( rfsc_recv( rfsc_buffer, 1, 0 ) == 1 )`.  The request is already in the buffer. -/
def emptyReceiveBuffer (buf : List UInt8) : List UInt8 → List UInt8
  | [] => buf
  | c :: late => emptyReceiveBuffer (buf.set 0 c) late

def writeRequest (o : OpenFlags) (buf : List UInt8) : Call → Option (List UInt8)
  | .open_ pathname flags mode =>
      remotefsOpenWriteRequest buf pathname (osOpenSysFlagsToRfsFlags o flags) mode
  | .write fd src => remotefsWriteWriteRequest buf fd src (src.getD []).length.toUInt32
  | .read fd count => remotefsReadWriteRequest buf fd count
  | .close fd => remotefsCloseWriteRequest buf fd
  | .lseek fd offset whence =>
      remotefsLseekWriteRequest buf fd offset (osLseekSysWhenceToRfsWhence whence)
  | .opendir name => remotefsOpendirWriteRequest buf name
  | .readdir d => remotefsReaddirWriteRequest buf d
  | .closedir d => remotefsClosedirWriteRequest buf d

/-- The response, with the bytes that are copied to the caller's buffer. -/
def readResponse (buf : List UInt8) : Call → Option (List UInt8 × ErrFlag)
  | .open_ _ _ _ => (remotefsOpenReadResponse buf).map fun (_, e) => ([], e)
  | .write _ _ => (remotefsWriteReadResponse buf).map fun (_, e) => ([], e)
  | .read _ _ => (copyRead buf).map fun ((_, data), e) => (data, e)
  | .close _ => (remotefsCloseReadResponse buf).map fun (_, e) => ([], e)
  | .lseek _ _ _ => (remotefsLseekReadResponse buf).map fun (_, e) => ([], e)
  | .opendir _ => (remotefsOpendirReadResponse buf).map fun (_, e) => ([], e)
  | .readdir _ => (remotefsReaddirReadResponse buf).map fun (_, e) => ([], e)
  | .closedir _ => (remotefsClosedirReadResponse buf).map fun (_, e) => ([], e)

/-- The bytes that a call copies to its caller's buffer; `none` when it accesses anything outside
of `rfs_buffer`. -/
def rfscCopied (o : OpenFlags) (buf : List UInt8) (call : Call) (inc : Incoming) :
    Option (List UInt8) :=
  exchange (fun _ => some inc.answer)
    ((writeRequest o buf call).map (emptyReceiveBuffer · inc.late)) [] (readResponse · call)

/-- The number of bytes that the caller asks for. -/
def Call.asked : Call → Nat
  | .read _ count => count.toNat
  | _ => 0

/-- A call accesses nothing outside of the buffer, and copies no more than it was asked for. -/
def CallInside (o : OpenFlags) (buf : List UInt8) (call : Call) (inc : Incoming) : Prop :=
  ∃ copied, rfscCopied o buf call inc = some copied ∧ copied.length ≤ call.asked

/-! ## When a call is inside -/

/-- The size of the request.  Lengths are of type `u32`. -/
def requestSize : Call → Nat
  | .open_ pathname _ _ => 34 + pathname.size.toUInt32.toNat
  | .write _ src => 29 + (src.getD []).length.toUInt32.toNat
  | .read _ _ => 28
  | .close _ => 23
  | .lseek _ _ _ => 33
  | .opendir name => 24 + name.size.toUInt32.toNat
  | .readdir _ => 23
  | .closedir _ => 23

/-- The buffer with the request of a call in it. -/
def requestIn (o : OpenFlags) (buf : List UInt8) (call : Call) : List UInt8 :=
  packetBytes (requestFields o call) ++ buf.drop (packetSize (requestFields o call))

/-- The length in a response to `read` or `readdir`. -/
def embedded (buf : List UInt8) : Nat := embeddedLength buf 'p' 11

/-- The length in a response keeps its fields in the buffer; that of an accepted response to a
request to read is not more than was asked for. -/
def ResponseOk (buf : List UInt8) : Call → Prop
  | .read _ count => 23 + embedded buf ≤ clientBufferSize ∧
      (Markers buf ['r', 'p'] [RFS_OP_READ] → embedded buf ≤ count.toNat)
  | .readdir _ => 33 + embedded buf ≤ clientBufferSize
  | _ => True

/-- The request fits; if it has not been damaged and is answered by a size header, the bytes that
arrive for this size fit, and if all of them do arrive, the response is a good one. -/
def CallOk (o : OpenFlags) (buf : List UInt8) (call : Call) (inc : Incoming) : Prop :=
  requestSize call ≤ clientBufferSize ∧
    ((∀ c ∈ inc.late.getLast?, c = TYPE_PKT_SIZE) → ELUARPC_START_OFFSET ≤ inc.answer.length →
      ∀ size, eluarpcGetPacketSize (inc.answer.take ELUARPC_START_OFFSET) =
          some (size, ELUARPC_OK) →
        ELUARPC_START_OFFSET +
            min (bytesAfterHeader size) (inc.answer.length - ELUARPC_START_OFFSET) ≤
          clientBufferSize ∧
        (ELUARPC_START_OFFSET + bytesAfterHeader size ≤ inc.answer.length →
          ResponseOk (splice (requestIn o buf call) 0
            (inc.answer.take (ELUARPC_START_OFFSET + bytesAfterHeader size))) call))

theorem exchange_map {α β : Type} (f : α → β) (link : Link) (buf : Option (List UInt8)) (failed : α)
    (decode : List UInt8 → Option (α × ErrFlag)) :
    (exchange link buf failed decode).map f =
      exchange link buf (f failed) fun b => (decode b).map fun (r, e) => (f r, e) := by
  cases buf with
  | none => rfl
  | some buf =>
      simp only [exchange, Option.bind_eq_bind, Option.bind_some, Option.pure_def]
      cases rfschSendRequestReadResponse link buf with
      | none => rfl
      | some received =>
          obtain ⟨status, buf⟩ := received
          cases status with
          | CLIENT_ERR => rfl
          | CLIENT_OK =>
              simp only [Option.bind_some, reduceCtorEq, if_false]
              cases decode buf with
              | none => rfl
              | some result =>
                  obtain ⟨r, e⟩ := result
                  cases e <;> rfl

/-- The bytes that a call has copied. -/
def Ret.copied : Ret → List UInt8
  | .bytes _ data => data
  | _ => []

/-- What a call without late bytes copies is what it returns. -/
theorem rfscCopied_eq {o : OpenFlags} {buf : List UInt8} {call : Call} {answer : List UInt8}
    (hcall : ∀ d, call ≠ .readdir d) :
    rfscCopied o buf call ⟨[], answer⟩ =
      (rfscCall o (fun _ => some answer) buf call).map Ret.copied := by
  have hempty : (emptyReceiveBuffer · []) = id := rfl
  rw [rfscCopied, hempty, Option.map_id]
  cases call with
  | readdir d => exact absurd rfl (hcall d)
  | _ =>
      simp only [rfscCall, rfscOpen, rfscWrite, rfscRead, rfscClose, rfscLseek, rfscOpendir,
        rfscClosedir, Option.map_map, exchange_map]
      rfl

/-! ## The request -/

theorem genWrite_eq_ite {fmt : List Char} {ap : List VaArg} {fs : List Field}
    (h : fields? fmt ap = some fs) (mem : List UInt8) :
    eluarpcGenWrite mem fmt ap =
      if packetSize fs ≤ mem.length then some (packetBytes fs ++ mem.drop (packetSize fs))
      else none := by
  split
  · next hfits => exact eluarpcGenWrite_eq h hfits
  · next hover => exact eluarpcGenWrite_eq_none h (Nat.lt_of_not_le hover)

theorem toUInt32_length_le (xs : List UInt8) : xs.length.toUInt32.toNat ≤ xs.length :=
  Nat.mod_le _ _

section

variable {d : List UInt8} {n : UInt32}

theorem openRequest_fields (h : n.toNat ≤ d.length) (flags mode : UInt32) :
    fields? ['o', 'p', 'i', 'i']
        [.int RFS_OP_OPEN, .ptr (some d), .int n, .int flags, .int mode] =
      some [.op 1, .ptr (d.take n.toNat), .int32 flags, .int32 mode] ∧
    packetSize [.op 1, .ptr (d.take n.toNat), .int32 flags, .int32 mode] = 34 + n.toNat := by
  constructor
  · simp [fields?, field?, h, RFS_OP_OPEN]
  · simp [packetSize, fieldsBytes, Field.bytes, h]
    omega

theorem writeRequest_fields {src : Option (List UInt8)} (h : n.toNat ≤ (src.getD []).length)
    (fd : UInt32) :
    fields? ['o', 'i', 'p'] [.int RFS_OP_WRITE, .int fd, .ptr src, .int n] =
      some [.op 2, .int32 fd, .ptr ((src.getD []).take n.toNat)] ∧
    packetSize [.op 2, .int32 fd, .ptr ((src.getD []).take n.toNat)] = 29 + n.toNat := by
  constructor
  · simp [fields?, field?, h, RFS_OP_WRITE]
  · simp [packetSize, fieldsBytes, Field.bytes, h]
    omega

theorem opendirRequest_fields (h : n.toNat ≤ d.length) :
    fields? ['o', 'p'] [.int RFS_OP_OPENDIR, .ptr (some d), .int n] =
      some [.op 6, .ptr (d.take n.toNat)] ∧
    packetSize [.op 6, .ptr (d.take n.toNat)] = 24 + n.toNat := by
  constructor
  · simp [fields?, field?, h, RFS_OP_OPENDIR]
  · simp [packetSize, fieldsBytes, Field.bytes, h]
    omega

end

/-- The request of a call. -/
theorem exists_request (o : OpenFlags) (call : Call) :
    ∃ fs, packetSize fs = requestSize call ∧
      (∀ buf, writeRequest o buf call =
        if packetSize fs ≤ buf.length then some (packetBytes fs ++ buf.drop (packetSize fs))
        else none) ∧
      ∀ buf xs, ResponseOk (splice (packetBytes fs ++ buf.drop (packetSize fs)) 0 xs) call ↔
        ResponseOk (splice (requestIn o buf call) 0 xs) call := by
  have hgen : ∀ fmt ap fs, fields? fmt ap = some fs → ∀ mem, eluarpcGenWrite mem fmt ap =
      if packetSize fs ≤ mem.length then some (packetBytes fs ++ mem.drop (packetSize fs))
      else none := fun _ _ _ h mem => genWrite_eq_ite h mem
  cases call with
  | open_ pathname flags mode =>
      have hle : pathname.size.toUInt32.toNat ≤ pathname.bytes.length :=
        pathname.bytes_length ▸ Nat.mod_le _ _
      obtain ⟨hfields, hsize⟩ := openRequest_fields hle (osOpenSysFlagsToRfsFlags o flags) mode
      exact ⟨_, hsize, hgen _ _ _ hfields, fun _ _ => Iff.rfl⟩
  | write fd src =>
      obtain ⟨hfields, hsize⟩ := writeRequest_fields (toUInt32_length_le (src.getD [])) fd
      exact ⟨_, hsize, hgen _ _ _ hfields, fun _ _ => Iff.rfl⟩
  | opendir name =>
      have hle : name.size.toUInt32.toNat ≤ name.bytes.length :=
        name.bytes_length ▸ Nat.mod_le _ _
      obtain ⟨hfields, hsize⟩ := opendirRequest_fields hle
      exact ⟨_, hsize, hgen _ _ _ hfields, fun _ _ => Iff.rfl⟩
  | read fd count =>
      exact ⟨requestFields o (.read fd count), rfl, hgen _ _ _ rfl, fun _ _ => Iff.rfl⟩
  | close fd => exact ⟨requestFields o (.close fd), rfl, hgen _ _ _ rfl, fun _ _ => Iff.rfl⟩
  | lseek fd offset whence =>
      exact ⟨requestFields o (.lseek fd offset whence), rfl, hgen _ _ _ rfl, fun _ _ => Iff.rfl⟩
  | readdir d => exact ⟨requestFields o (.readdir d), rfl, hgen _ _ _ rfl, fun _ _ => Iff.rfl⟩
  | closedir d => exact ⟨requestFields o (.closedir d), rfl, hgen _ _ _ rfl, fun _ _ => Iff.rfl⟩

/-! ## The exchange -/

theorem emptyReceiveBuffer_cons (a : UInt8) (buf late : List UInt8) :
    emptyReceiveBuffer (a :: buf) late = late.getLast?.getD a :: buf := by
  induction late generalizing a with
  | nil => rfl
  | cons c late ih =>
      rw [emptyReceiveBuffer, List.set_cons_zero, ih, List.getLast?_cons]
      rfl

theorem getD_eq_iff {a : UInt8} (last : Option UInt8) : last.getD a = a ↔ ∀ c ∈ last, c = a := by
  cases last with
  | none => simp
  | some c => simp

section

variable {buf answer : List UInt8}

/-- A request whose first byte has been overwritten is not sent. -/
theorem rfsch_damaged {a b lo hi : UInt8} {rest : List UInt8} (ha : a ≠ TYPE_PKT_SIZE)
    (link : Link) :
    rfschSendRequestReadResponse link (a :: b :: lo :: hi :: rest) =
      some (CLIENT_ERR, a :: b :: lo :: hi :: rest) := by
  rw [rfschSendRequestReadResponse, getPacketSize_cons, if_neg fun h => ha h.1]
  rfl

/-- After the request is sent, client and server receive a packet in the same way. -/
theorem rfsch_eq_serReceive {size : UInt16}
    (hsize : eluarpcGetPacketSize buf = some (size, ELUARPC_OK))
    (hfits : size.toNat ≤ buf.length) :
    rfschSendRequestReadResponse (fun _ => some answer) buf =
      (serReceive buf (answer.take ELUARPC_START_OFFSET) (answer.drop ELUARPC_START_OFFSET)).map
        fun r => (if r.2 then CLIENT_OK else CLIENT_ERR, r.1) := by
  rw [← receive_eq fun received mem => (if received then CLIENT_OK else CLIENT_ERR, mem)]
  simp only [rfschSendRequestReadResponse, hsize, Option.bind_eq_bind, Option.bind_some,
    Option.pure_def, reduceCtorEq, if_false, if_neg (Nat.not_lt.mpr hfits)]
  rfl

end

/-! ## The response -/

section

variable {buf : List UInt8}

/-- Whether a response is decoded inside of the buffer. -/
theorem genRead_isSome_iff {fmt : List Char} {ids : List UInt32} (hids : ids.length = idCount fmt) :
    (∃ vs e, eluarpcGenRead buf fmt ids = some (vs, e)) ↔ extent buf fmt ≤ buf.length :=
  ⟨fun ⟨_, _, h⟩ => (eluarpcGenRead_inv hids h).1, eluarpcGenRead_of_extent hids⟩

theorem exists_readResult {c : Char} (hc : c = 'i' ∨ c = 'l' ∨ c = 'L') (op : UInt32)
    (hbuf : 22 ≤ buf.length) : ∃ v e, readResult c op buf = some (v, e) := by
  have hids : [op].length = idCount ['r', c] := by
    rcases hc with rfl | rfl | rfl <;> rfl
  have hextent : extent buf ['r', c] = 22 := by
    rcases hc with rfl | rfl | rfl <;> rfl
  obtain ⟨vs, e, hread⟩ := eluarpcGenRead_of_extent hids (hextent.trans_le hbuf)
  have hvalues := eluarpcGenRead_decoded hread
  have hfilter : ['r', c].filter takesValue = [c] := by
    rcases hc with rfl | rfl | rfl <;> rfl
  rw [hfilter] at hvalues
  obtain ⟨v, vs, hv, hnil, rfl⟩ := List.forall₂_cons_left_iff.mp hvalues
  obtain rfl := List.forall₂_nil_left_iff.mp hnil
  rw [readResult, hread]
  rcases hc with rfl | rfl | rfl <;> cases v <;> first | exact hv.elim | exact ⟨_, _, rfl⟩

theorem exists_readdirResponse_iff :
    (∃ r, remotefsReaddirReadResponse buf = some r) ↔ 33 + embedded buf ≤ buf.length := by
  have hextent : extent buf ['r', 'p', 'l', 'l'] = 17 + embedded buf + 5 + 5 + 6 := rfl
  have hiff := @genRead_isSome_iff buf ['r', 'p', 'l', 'l'] [RFS_OP_READDIR] rfl
  rw [hextent] at hiff
  rw [show 33 + embedded buf = 17 + embedded buf + 5 + 5 + 6 by omega, ← hiff,
    remotefsReaddirReadResponse]
  constructor
  · rintro ⟨r, h⟩
    obtain ⟨⟨vs, e⟩, hread, -⟩ := Option.bind_eq_some_iff.mp h
    exact ⟨vs, e, hread⟩
  · rintro ⟨vs, e, hread⟩
    rw [hread]
    obtain ⟨v, vs, hv, hvs, rfl⟩ := List.forall₂_cons_left_iff.mp (eluarpcGenRead_decoded hread)
    obtain ⟨w, _, hw, htail, rfl⟩ := List.forall₂_cons_left_iff.mp hvs
    obtain ⟨x, _, hx, hlast, rfl⟩ := List.forall₂_cons_left_iff.mp htail
    obtain rfl := List.forall₂_nil_left_iff.mp hlast
    obtain ⟨off, len, rfl⟩ := hv.ptr
    obtain ⟨w, rfl⟩ := hw.u32
    obtain ⟨x, rfl⟩ := hx.u32
    exact ⟨_, rfl⟩

theorem readResponse_fields (src : Option (List UInt8)) (n : UInt32) :
    fields? ['r', 'p'] [.int RFS_OP_READ, .ptr src, .int n] =
      if n.toNat ≤ (src.getD []).length then
        some [.response 3, .ptr ((src.getD []).take n.toNat)]
      else none := by
  by_cases h : n.toNat ≤ (src.getD []).length
  · simp [fields?, field?, h, RFS_OP_READ]
  · simp [fields?, field?, h]

/-- What is copied out of a response to a request to read. -/
theorem copyRead_iff {n : Nat} :
    (∃ v data e, copyRead buf = some ((v, data), e) ∧ (e = ELUARPC_OK → data.length ≤ n)) ↔
      23 + embedded buf ≤ buf.length ∧
        (Markers buf ['r', 'p'] [RFS_OP_READ] → embedded buf ≤ n) := by
  have hextent : extent buf ['r', 'p'] = 17 + embedded buf + 6 := rfl
  have hids : [RFS_OP_READ].length = idCount ['r', 'p'] := rfl
  have hsingle : ∀ vs e, eluarpcGenRead buf ['r', 'p'] [RFS_OP_READ] = some (vs, e) →
      ∃ off len, vs = [.ptr off len] := by
    intro vs e hread
    obtain ⟨v, vs, hv, hvs, rfl⟩ := List.forall₂_cons_left_iff.mp (eluarpcGenRead_decoded hread)
    obtain rfl := List.forall₂_nil_left_iff.mp hvs
    obtain ⟨off, len, rfl⟩ := hv.ptr
    exact ⟨off, len, rfl⟩
  have hcopy : ∀ off len e, eluarpcGenRead buf ['r', 'p'] [RFS_OP_READ] =
      some ([.ptr off len], e) → copyRead buf =
        some ((len, (off.map fun off => slice buf off len.toNat).getD []), e) := by
    intro off len e hread
    rw [copyRead, remotefsReadReadResponse, hread]
    rfl
  have hlen : ∀ off len, 23 + embedded buf ≤ buf.length → Markers buf ['r', 'p'] [RFS_OP_READ] →
      eluarpcGenRead buf ['r', 'p'] [RFS_OP_READ] = some ([.ptr off len], ELUARPC_OK) →
        ((off.map fun off => slice buf off len.toNat).getD []).length = embedded buf := by
    intro off len hfits hmarks hread
    obtain ⟨fs, vs, hread', hfields, -, hsize, -⟩ :=
      exists_fields_of_markers_of_extent hids (by omega) hmarks
    rw [hread, Option.some.injEq] at hread'
    obtain ⟨rfl, -⟩ := Prod.mk.inj hread'
    have hle : ((off.map fun off => slice buf off len.toNat).getD []).length ≤ len.toNat := by
      cases off with
      | none => exact Nat.zero_le _
      | some off => exact List.length_take_le _ _
    have hargs : reencodeArgs buf ['r', 'p'] [RFS_OP_READ] [.ptr off len] =
        [.int RFS_OP_READ, .ptr (off.map fun off => slice buf off len.toNat), .int len] := rfl
    rw [hargs, readResponse_fields] at hfields
    generalize (off.map fun off => slice buf off len.toNat).getD [] = d at *
    split at hfields
    · next hge =>
      obtain rfl := Option.some.inj hfields
      rw [readResponse_size, List.length_take_of_le hge, hextent] at hsize
      omega
    · cases hfields
  constructor
  · rintro ⟨v, data, e, h, hn⟩
    obtain ⟨_, hresponse, -⟩ := Option.bind_eq_some_iff.mp h
    obtain ⟨⟨vs, e'⟩, hread, -⟩ := Option.bind_eq_some_iff.mp hresponse
    obtain ⟨hfits, -⟩ := eluarpcGenRead_inv hids hread
    have hfits : 23 + embedded buf ≤ buf.length := by omega
    refine ⟨hfits, fun hmarks => ?_⟩
    obtain ⟨-, vs', hread', -⟩ := exists_fields_of_markers_of_extent hids (by omega) hmarks
    rw [hread, Option.some.injEq] at hread'
    obtain ⟨rfl, rfl⟩ := Prod.mk.inj hread'
    obtain ⟨off, len, rfl⟩ := hsingle _ _ hread
    rw [hcopy off len _ hread, Option.some.injEq] at h
    obtain ⟨hresult, rfl⟩ := Prod.mk.inj h
    obtain ⟨-, rfl⟩ := Prod.mk.inj hresult
    rw [← hlen off len hfits hmarks hread]
    exact hn rfl
  · rintro ⟨hfits, hn⟩
    obtain ⟨vs, e, hread⟩ := eluarpcGenRead_of_extent hids (by omega : extent buf ['r', 'p'] ≤ _)
    have hmarks := (eluarpcGenRead_inv hids hread).2
    obtain ⟨off, len, rfl⟩ := hsingle _ _ hread
    refine ⟨_, _, e, hcopy off len e hread, ?_⟩
    rintro rfl
    rw [hlen off len hfits (hmarks rfl) hread]
    exact hn (hmarks rfl)

theorem readResponse_iff (hbuf : buf.length = clientBufferSize) (call : Call) :
    (∃ copied e, readResponse buf call = some (copied, e) ∧
      (e = ELUARPC_OK → copied.length ≤ call.asked)) ↔ ResponseOk buf call := by
  have hresult : ∀ c op, c = 'i' ∨ c = 'l' ∨ c = 'L' → ∃ copied e,
      (readResult c op buf).map (fun r => (([] : List UInt8), r.2)) = some (copied, e) ∧
        (e = ELUARPC_OK → copied.length ≤ 0) := by
    intro c op hc
    obtain ⟨v, e, h⟩ := exists_readResult hc op (hbuf ▸ (by decide : 22 ≤ clientBufferSize))
    exact ⟨[], e, by rw [h]; rfl, fun _ => Nat.le_refl 0⟩
  cases call with
  | open_ pathname flags mode => exact iff_of_true (hresult 'i' _ (.inl rfl)) trivial
  | write fd src => exact iff_of_true (hresult 'l' _ (.inr (.inl rfl))) trivial
  | close fd => exact iff_of_true (hresult 'i' _ (.inl rfl)) trivial
  | lseek fd offset whence => exact iff_of_true (hresult 'L' _ (.inr (.inr rfl))) trivial
  | opendir name => exact iff_of_true (hresult 'l' _ (.inr (.inl rfl))) trivial
  | closedir d => exact iff_of_true (hresult 'i' _ (.inl rfl)) trivial
  | read fd count =>
      rw [ResponseOk, ← hbuf, ← copyRead_iff]
      simp only [readResponse, Option.map_eq_some_iff, Prod.exists, Prod.mk.injEq]
      constructor
      · rintro ⟨copied, e, ⟨v, data, e', h, rfl, rfl⟩, hle⟩
        exact ⟨v, data, e', h, hle⟩
      · rintro ⟨v, data, e, h, hle⟩
        exact ⟨data, e, ⟨v, data, e, h, rfl, rfl⟩, hle⟩
  | readdir d =>
      rw [ResponseOk, ← hbuf, ← exists_readdirResponse_iff]
      constructor
      · rintro ⟨copied, e, h, -⟩
        obtain ⟨r, h, -⟩ := Option.map_eq_some_iff.mp h
        exact ⟨r, h⟩
      · rintro ⟨r, h⟩
        exact ⟨[], r.2, Option.map_eq_some_iff.mpr ⟨r, h, rfl⟩, fun _ => Nat.zero_le _⟩

end

/-! ## All together -/

section

variable {o : OpenFlags} {buf : List UInt8} {call : Call} {inc : Incoming}

/-- A call is inside if its exchange is, and the response if there is one. -/
theorem exchange_copied_iff {link : Link} {n : Nat}
    {decode : List UInt8 → Option (List UInt8 × ErrFlag)} :
    (∃ copied, exchange link (some buf) [] decode = some copied ∧ copied.length ≤ n) ↔
      ∃ status buf', rfschSendRequestReadResponse link buf = some (status, buf') ∧
        (status = CLIENT_OK → ∃ copied e, decode buf' = some (copied, e) ∧
          (e = ELUARPC_OK → copied.length ≤ n)) := by
  simp only [exchange, Option.bind_eq_bind, Option.bind_some, Option.pure_def]
  cases rfschSendRequestReadResponse link buf with
  | none => simp
  | some received =>
      obtain ⟨status, buf'⟩ := received
      cases status with
      | CLIENT_ERR => simp
      | CLIENT_OK =>
          cases hdecode : decode buf' with
          | none => simp [hdecode]
          | some result =>
              obtain ⟨copied, e⟩ := result
              cases e <;> simp [hdecode]

/-- The response to a request that is in the buffer. -/
theorem answered_iff {size : UInt16} (hsize : eluarpcGetPacketSize buf = some (size, ELUARPC_OK))
    (hfits : size.toNat ≤ clientBufferSize) (hbuf : buf.length = clientBufferSize) :
    (∃ copied, exchange (fun _ => some inc.answer) (some buf) [] (readResponse · call) =
        some copied ∧ copied.length ≤ call.asked) ↔
      (ELUARPC_START_OFFSET ≤ inc.answer.length →
        ∀ size, eluarpcGetPacketSize (inc.answer.take ELUARPC_START_OFFSET) =
            some (size, ELUARPC_OK) →
          ELUARPC_START_OFFSET +
              min (bytesAfterHeader size) (inc.answer.length - ELUARPC_START_OFFSET) ≤
            clientBufferSize ∧
          (ELUARPC_START_OFFSET + bytesAfterHeader size ≤ inc.answer.length →
            ResponseOk (splice buf 0
              (inc.answer.take (ELUARPC_START_OFFSET + bytesAfterHeader size))) call)) := by
  have hstart : ELUARPC_START_OFFSET ≤ buf.length :=
    hbuf ▸ (by decide : ELUARPC_START_OFFSET ≤ clientBufferSize)
  have htake : (inc.answer.take ELUARPC_START_OFFSET).take ELUARPC_START_OFFSET =
      inc.answer.take ELUARPC_START_OFFSET := by
    rw [List.take_take, Nat.min_self]
  rw [exchange_copied_iff, rfsch_eq_serReceive hsize (hbuf ▸ hfits)]
  by_cases hheader : ELUARPC_START_OFFSET ≤ inc.answer.length ∧ ∃ size,
      eluarpcGetPacketSize (inc.answer.take ELUARPC_START_OFFSET) = some (size, ELUARPC_OK)
  · obtain ⟨hlong, size, hheader⟩ := hheader
    have hhead : ELUARPC_START_OFFSET ≤ (inc.answer.take ELUARPC_START_OFFSET).length := by
      rw [List.length_take_of_le hlong]
    have hreceive := @serReceive_of_header buf [] (inc.answer.take ELUARPC_START_OFFSET)
      (inc.answer.drop ELUARPC_START_OFFSET) hstart hhead size (htake.symm ▸ hheader)
    rw [htake, ← List.take_add, List.append_nil] at hreceive
    have hlen : (inc.answer.take (ELUARPC_START_OFFSET + bytesAfterHeader size)).length =
        ELUARPC_START_OFFSET +
          min (bytesAfterHeader size) (inc.answer.length - ELUARPC_START_OFFSET) := by
      rw [List.length_take]
      omega
    have hone : ∀ P : UInt16 → Prop, (ELUARPC_START_OFFSET ≤ inc.answer.length → ∀ size,
        eluarpcGetPacketSize (inc.answer.take ELUARPC_START_OFFSET) = some (size, ELUARPC_OK) →
          P size) ↔ P size := by
      intro P
      refine ⟨fun h => h hlong size hheader, fun h _ size' hheader' => ?_⟩
      rw [hheader, Option.some.injEq] at hheader'
      rwa [← (Prod.mk.inj hheader').1]
    rw [hone, hreceive, ← hlen, ← hbuf]
    by_cases hroom : 0 + (inc.answer.take (ELUARPC_START_OFFSET + bytesAfterHeader size)).length ≤
        buf.length
    · rw [storeAll_eq_splice hroom, ← readResponse_iff ((splice_length hroom).trans hbuf)]
      rw [Nat.zero_add] at hroom
      have hall : bytesAfterHeader size ≤ (inc.answer.drop ELUARPC_START_OFFSET).length ↔
          ELUARPC_START_OFFSET + bytesAfterHeader size ≤ inc.answer.length := by
        rw [List.length_drop]
        omega
      rw [Option.map_some, Option.map_some, decide_eq_decide.mpr hall]
      by_cases hcomplete : ELUARPC_START_OFFSET + bytesAfterHeader size ≤ inc.answer.length
      · rw [decide_eq_true hcomplete]
        constructor
        · rintro ⟨status, buf', h, hok⟩
          obtain ⟨rfl, rfl⟩ := Prod.mk.inj (Option.some.inj h)
          exact ⟨hroom, fun _ => hok rfl⟩
        · exact fun h => ⟨CLIENT_OK, _, rfl, fun _ => h.2 hcomplete⟩
      · rw [decide_eq_false hcomplete]
        exact iff_of_true ⟨CLIENT_ERR, _, rfl, nofun⟩ ⟨hroom, fun h => absurd h hcomplete⟩
    · have hne : inc.answer.take (ELUARPC_START_OFFSET + bytesAfterHeader size) ≠ [] := by
        rintro hnil
        rw [hnil] at hroom
        exact hroom (Nat.zero_le _)
      rw [storeAll_eq_none (Nat.lt_of_not_le hroom) hne]
      rw [Nat.zero_add] at hroom
      refine iff_of_false ?_ fun h => hroom h.1
      rintro ⟨status, buf', h, -⟩
      cases h
  · have hno : ELUARPC_START_OFFSET ≤ (inc.answer.take ELUARPC_START_OFFSET).length → ∀ size,
        eluarpcGetPacketSize ((inc.answer.take ELUARPC_START_OFFSET).take ELUARPC_START_OFFSET) ≠
          some (size, ELUARPC_OK) := by
      rw [htake]
      intro hlong size h
      rw [List.length_take] at hlong
      exact hheader ⟨by omega, size, h⟩
    obtain ⟨buf', hreceive, -⟩ := @serReceive_of_no_header buf [] _
      (inc.answer.drop ELUARPC_START_OFFSET) hstart hno
    rw [List.append_nil, List.append_nil] at hreceive
    rw [hreceive]
    refine iff_of_true ⟨CLIENT_ERR, buf', rfl, nofun⟩ fun hlong size h => ?_
    exact absurd ⟨hlong, size, h⟩ hheader

/-- **When a call is inside.** -/
theorem callInside_iff (hbuf : buf.length = clientBufferSize) :
    CallInside o buf call inc ↔ CallOk o buf call inc := by
  obtain ⟨fs, hsize, hwrite, hresponse⟩ := exists_request o call
  rw [CallInside, CallOk, rfscCopied, hwrite, hbuf, ← hsize]
  by_cases hfits : packetSize fs ≤ clientBufferSize
  · rw [if_pos hfits, Option.map_some]
    have hlen : (packetBytes fs ++ buf.drop (packetSize fs)).length = clientBufferSize := by
      rw [List.length_append, packetBytes_length, List.length_drop]
      omega
    obtain ⟨lo, hi, tail, htail⟩ : ∃ lo hi tail, packetBytes fs ++ buf.drop (packetSize fs) =
        TYPE_PKT_SIZE :: TYPE_INT_16 :: lo :: hi :: tail := ⟨_, _, _, rfl⟩
    have hfits16 : packetSize fs ≤ 65535 := hfits.trans (by decide)
    obtain ⟨size, hget, hval⟩ := getPacketSize_packet hfits16 (buf.drop (packetSize fs))
    have hanswer := @answered_iff _ call inc _ hget (hval ▸ hfits) hlen
    simp only [hresponse] at hanswer
    rw [htail] at hanswer ⊢
    rw [emptyReceiveBuffer_cons]
    by_cases hlate : inc.late.getLast?.getD TYPE_PKT_SIZE = TYPE_PKT_SIZE
    · rw [hlate, hanswer]
      exact ⟨fun h => ⟨hfits, fun _ => h⟩, fun h => h.2 ((getD_eq_iff _).mp hlate)⟩
    · rw [exchange_copied_iff, rfsch_damaged hlate]
      exact iff_of_true ⟨CLIENT_ERR, _, rfl, nofun⟩
        ⟨hfits, fun h => absurd ((getD_eq_iff _).mpr h) hlate⟩
  · rw [if_neg hfits]
    refine iff_of_false ?_ fun h => hfits h.1
    rintro ⟨copied, h, -⟩
    cases h

end

/-- The chunks of both functions are sized for the buffer. -/
theorem chunkLoop_count_le {realSize : Nat}
    {transfer : Nat → Nat → UInt32 → Int32 × List UInt8} {n k p : Nat} {len : UInt32}
    {total total' : Int32} {cs : List Chunk}
    (h : chunkLoop realSize transfer n k len p total = some (total', cs)) :
    ∀ c ∈ cs, c.count.toNat ≤ realSize := by
  induction n generalizing k len p total total' cs with
  | zero => cases h
  | succ n ih =>
      have hcount : (Chunk.call transfer k p
          (if realSize < len.toNat then realSize.toUInt32 else len)).count.toNat ≤ realSize := by
        rw [Chunk.call, count_toNat]
        exact Nat.min_le_left _ _
      rw [chunkLoop] at h
      dsimp only at h
      generalize Chunk.call transfer k p
        (if realSize < len.toNat then realSize.toUInt32 else len) = c at h hcount
      split at h
      · obtain ⟨-, rfl⟩ := Prod.mk.inj (Option.some.inj h)
        exact fun d hd => absurd hd List.not_mem_nil
      · split at h
        · obtain ⟨-, rfl⟩ := Prod.mk.inj (Option.some.inj h)
          exact fun d hd => (List.mem_singleton.mp hd) ▸ hcount
        · split at h
          · obtain ⟨-, rfl⟩ := Prod.mk.inj (Option.some.inj h)
            exact fun d hd => (List.mem_singleton.mp hd) ▸ hcount
          · obtain ⟨⟨total'', cs'⟩, hrest, heq⟩ := Option.map_eq_some_iff.mp h
            obtain ⟨-, rfl⟩ := Prod.mk.inj heq
            intro d hd
            rcases List.mem_cons.mp hd with rfl | hd
            · exact hcount
            · exact ih hrest d hd

/-- **What the client accesses.**  A call is inside of the buffer and copies no more than it was
asked for exactly if its request fits, and what arrives for it is good.  The requests of
`rfs_write_r` always fit. -/
theorem client_inside_iff (o : OpenFlags)
    (buf : { b : List UInt8 // b.length = clientBufferSize }) :
    (∀ call inc, CallInside o buf.1 call inc ↔ CallOk o buf.1 call inc) ∧
      ∀ rfsc ptr len total cs, rfsWriteR RFS_BUFFER_SIZE rfsc ptr len = some (total, cs) →
        ∀ c ∈ cs, ∀ fd,
          requestSize (.write fd (some (slice ptr c.offset c.count.toNat))) ≤
            clientBufferSize := by
  refine ⟨fun call inc => callInside_iff buf.2, ?_⟩
  intro rfsc ptr len total cs h c hc fd
  have hcount : c.count.toNat ≤ 483 := chunkLoop_count_le h c hc
  have hlen : (slice ptr c.offset c.count.toNat).length ≤ c.count.toNat := List.length_take_le _ _
  have hle := toUInt32_length_le (slice ptr c.offset c.count.toNat)
  have hsize : clientBufferSize = 512 := rfl
  rw [requestSize, Option.getD_some, hsize]
  omega

/-- A path of 500 characters. -/
def longPath : CString where
  chars := List.replicate 500 97
  noNul := fun h => absurd (List.eq_of_mem_replicate h) (by decide)

/-- A long path, and a response with two bytes where one was asked for. -/
theorem not_client_inside :
    ¬ CallInside newlibFlags (List.replicate clientBufferSize 0) (.open_ longPath 0 0) ⟨[], []⟩ ∧
      ¬ CallInside newlibFlags (List.replicate clientBufferSize 0) (.read 3 1)
        ⟨[], packetBytes [.response 3, .ptr [1, 2]]⟩ := by
  constructor
  · have hsize : longPath.size = 501 := congrArg (· + 1) List.length_replicate
    rw [callInside_iff List.length_replicate]
    rintro ⟨hfits, -⟩
    rw [requestSize, hsize] at hfits
    exact absurd hfits (by decide)
  · have hcopied : rfscCopied newlibFlags (List.replicate clientBufferSize 0) (.read 3 1)
        ⟨[], packetBytes [.response 3, .ptr [1, 2]]⟩ = some [1, 2] := by
      decide +kernel
    rintro ⟨copied, h, hle⟩
    rw [hcopied, Option.some.injEq] at h
    subst h
    exact absurd hle (by decide)

end Rfs
