import EluaWebServer.Rfs.Memory
import EluaWebServer.Rpc.Exact
import Mathlib.Data.List.Infix

/-!
# What the server stores behind its buffer

The memory of the server goes on behind `rfs_buffer`.  A request is received and
executed in the buffer with any bytes behind it, and these have to stay as they
are.  They do not if more bytes arrive after the size header than there is room
for, or if the host reads more of a file than the response has room for.
-/

namespace Rfs

open Rpc Buffer

/-! ## Requests to read -/

/-- A part of the buffer, with more behind it. -/
theorem at_left {b beyond xs : List UInt8} {p : Nat} (h : p + xs.length ≤ b.length) :
    At (b ++ beyond) p xs ↔ At b p xs := by
  have hdrop : (b ++ beyond).drop p = b.drop p ++ beyond :=
    List.drop_append_of_le_length (by omega)
  have hlen : xs.length ≤ (b.drop p).length := by
    rw [List.length_drop]
    omega
  rw [At, At, hdrop, List.isPrefix_append_of_length hlen]

/-- What a request to read has behind its size header. -/
def readTail (fd count : UInt32) : List UInt8 :=
  packetTail [.op 3, .int32 fd, .int32 count]

theorem readTail_length (fd count : UInt32) : (readTail fd count).length = 24 := by
  rw [readTail, packetTail_length]
  rfl

theorem readReadRequest_of_at {p : List UInt8} {fd count : UInt32}
    (h : At p 4 (readTail fd count)) :
    remotefsReadReadRequest p = some ((fd, count), ELUARPC_OK) := by
  have hfs : DenotesAll ['o', 'i', 'l'] [.op 3, .int32 fd, .int32 count] :=
    .cons (.op 3) (.cons (.int32 'i' _ (.inl rfl)) (.cons (.int32 'l' _ (.inr (.inl rfl))) .nil))
  obtain ⟨vs, hread, hvs⟩ := @eluarpcGenRead_of_at _ _ _ [RFS_OP_READ] hfs rfl h
  obtain ⟨_, rfl, htail⟩ := hvs.u32
  obtain ⟨_, rfl, rfl⟩ := htail.u32
  rw [remotefsReadReadRequest, hread]
  rfl

/-- A request to read is one of the packets that are. -/
theorem readReadRequest_iff {p : List UInt8} {fd count : UInt32} :
    remotefsReadReadRequest p = some ((fd, count), ELUARPC_OK) ↔
      At p 4 (readTail fd count) := by
  refine ⟨fun h => ?_, readReadRequest_of_at⟩
  rw [remotefsReadReadRequest] at h
  simp only [Option.bind_eq_bind, Option.bind_eq_some_iff, Prod.exists] at h
  obtain ⟨vs, e, hread, hvs⟩ := h
  split at hvs
  next =>
    obtain ⟨hvalues, rfl⟩ := Prod.mk.inj (Option.some.inj hvs)
    obtain ⟨rfl, rfl⟩ := Prod.mk.inj hvalues
    obtain ⟨hfit, hmarks⟩ := eluarpcGenRead_inv rfl hread
    obtain ⟨fs, vs', hread', hfields, hat, -⟩ :=
      exists_fields_of_markers_of_extent rfl hfit (hmarks rfl)
    rw [hread, Option.some.injEq] at hread'
    obtain ⟨rfl, -⟩ := Prod.mk.inj hread'
    obtain rfl := Option.some.inj hfields
    exact hat
  next => cases hvs

/-- A request that stands in the buffer is one with anything behind it. -/
theorem readReadRequest_left {b beyond : List UInt8} (hb : 28 ≤ b.length) {fd count : UInt32} :
    remotefsReadReadRequest (b ++ beyond) = some ((fd, count), ELUARPC_OK) ↔
      remotefsReadReadRequest b = some ((fd, count), ELUARPC_OK) := by
  rw [readReadRequest_iff, readReadRequest_iff, at_left]
  rw [readTail_length]
  exact hb

/-! ## Executing a request -/

/-- Everything behind the buffer is as it was. -/
def Kept (p m : List UInt8) : Prop :=
  m.length = p.length ∧ m.drop serverBufferSize = p.drop serverBufferSize

theorem Kept.refl (p : List UInt8) : Kept p p := ⟨rfl, rfl⟩

theorem Kept.trans {p m m' : List UInt8} (h : Kept p m) (h' : Kept m m') : Kept p m' :=
  ⟨h'.1.trans h.1, h'.2.trans h.2⟩

theorem kept_of_drop {p m : List UInt8} {n : Nat} (hn : n ≤ serverBufferSize)
    (hlen : m.length = p.length) (h : m.drop n = p.drop n) : Kept p m := by
  have hsplit : serverBufferSize = n + (serverBufferSize - n) := by omega
  refine ⟨hlen, ?_⟩
  rw [hsplit, ← List.drop_drop, ← List.drop_drop, h]

theorem kept_packet {p : List UInt8} {fs : List Field} (hfits : packetSize fs ≤ serverBufferSize)
    (hp : serverBufferSize ≤ p.length) :
    Kept p (packetBytes fs ++ p.drop (packetSize fs)) := by
  apply kept_of_drop hfits
  · rw [List.length_append, packetBytes_length, List.length_drop]
    omega
  · rw [← packetBytes_length, List.drop_left]

/-- The response is a packet that fits the buffer. -/
theorem kept_of_genWrite {p m : List UInt8} {fmt : List Char} {ap : List VaArg} {fs : List Field}
    (hfields : fields? fmt ap = some fs) (hfits : packetSize fs ≤ serverBufferSize)
    (hp : serverBufferSize ≤ p.length) (h : eluarpcGenWrite p fmt ap = some m) : Kept p m := by
  rw [eluarpcGenWrite_eq hfields (Nat.le_trans hfits hp), Option.some.injEq] at h
  subst h
  exact kept_packet hfits hp

theorem writeResult_kept {p m : List UInt8} {c : Char} (hc : c = 'i' ∨ c = 'l' ∨ c = 'L')
    {op v : UInt32} (hp : serverBufferSize ≤ p.length) (h : writeResult c op p v = some m) :
    Kept p m := by
  have hfields : fields? ['r', c] [.int op, .int v] =
      some [.response op.toUInt8, .int32 v] := by
    rcases hc with rfl | rfl | rfl <;> rfl
  exact kept_of_genWrite hfields (show 22 ≤ 4125 by decide) hp h

theorem readdirResponse_kept {p m : List UInt8} {name : Option CString} (hname : ShortName name)
    {size ftime : UInt32} (hp : serverBufferSize ≤ p.length)
    (h : remotefsReaddirWriteResponse p name size ftime = some m) : Kept p m := by
  have hle := hname.bytes_le
  refine kept_of_genWrite (hname.fields size ftime) ?_ hp h
  rw [readdirPacket_size]
  exact Nat.le_trans (Nat.add_le_add_left hle 33) (show 65 ≤ 4125 by decide)

theorem readResponse_size (d : List UInt8) : packetSize [.response 3, .ptr d] = 23 + d.length := by
  simp [packetSize, fieldsBytes, Field.bytes]
  omega

/-- A handler that leaves its request alone, or a response. -/
theorem respond_kept {e : ErrFlag} {p m : List UInt8} {response : Option (List UInt8)}
    {st : ServerStatus} (h : respond e p response = some (st, m))
    (hresponse : response = some m → Kept p m) : Kept p m := by
  cases e with
  | ELUARPC_ERR =>
      obtain ⟨-, rfl⟩ := Prod.mk.inj (Option.some.inj h)
      exact .refl p
  | ELUARPC_OK =>
      obtain ⟨m', hm, heq⟩ := Option.map_eq_some_iff.mp h
      obtain ⟨-, rfl⟩ := Prod.mk.inj heq
      exact hresponse hm

section Handlers

variable {os : OsIo} {basedir p m : List UInt8} {st : ServerStatus}

theorem serverOpen_kept (hp : serverBufferSize ≤ p.length)
    (h : serverOpen os basedir p = some (st, m)) : Kept p m := by
  simp only [serverOpen, Option.bind_eq_bind, Option.bind_eq_some_iff, Prod.exists] at h
  obtain ⟨_, _, _, e, -, h⟩ := h
  apply respond_kept h
  simp only [Option.bind_eq_some_iff]
  rintro ⟨_, -, _, -, hwrite⟩
  exact writeResult_kept (.inl rfl) hp hwrite

theorem serverWrite_kept (hp : serverBufferSize ≤ p.length)
    (h : serverWrite os p = some (st, m)) : Kept p m := by
  simp only [serverWrite, Option.bind_eq_bind, Option.bind_eq_some_iff, Prod.exists] at h
  obtain ⟨_, _, _, e, -, h⟩ := h
  apply respond_kept h
  intro hwrite
  exact writeResult_kept (.inr (.inl rfl)) hp hwrite

theorem serverClose_kept (hp : serverBufferSize ≤ p.length)
    (h : serverClose os p = some (st, m)) : Kept p m := by
  simp only [serverClose, Option.bind_eq_bind, Option.bind_eq_some_iff, Prod.exists] at h
  obtain ⟨_, e, -, h⟩ := h
  apply respond_kept h
  intro hwrite
  exact writeResult_kept (.inl rfl) hp hwrite

theorem serverLseek_kept (hp : serverBufferSize ≤ p.length)
    (h : serverLseek os p = some (st, m)) : Kept p m := by
  simp only [serverLseek, Option.bind_eq_bind, Option.bind_eq_some_iff, Prod.exists] at h
  obtain ⟨_, _, _, e, -, h⟩ := h
  apply respond_kept h
  intro hwrite
  exact writeResult_kept (.inr (.inr rfl)) hp hwrite

theorem serverOpendir_kept (hp : serverBufferSize ≤ p.length)
    (h : serverOpendir os basedir p = some (st, m)) : Kept p m := by
  simp only [serverOpendir, Option.bind_eq_bind, Option.bind_eq_some_iff, Prod.exists] at h
  obtain ⟨_, e, -, h⟩ := h
  apply respond_kept h
  simp only [Option.bind_eq_some_iff]
  rintro ⟨_, -, _, -, hwrite⟩
  exact writeResult_kept (.inr (.inl rfl)) hp hwrite

theorem serverReaddir_kept (hp : serverBufferSize ≤ p.length)
    (h : serverReaddir os basedir p = some (st, m)) : Kept p m := by
  simp only [serverReaddir, Option.bind_eq_bind, Option.bind_eq_some_iff, Prod.exists] at h
  obtain ⟨d, e, -, h⟩ := h
  apply respond_kept h
  simp only [Option.bind_eq_some_iff, Prod.exists]
  rintro ⟨name, fsize, hentry, hwrite⟩
  exact readdirResponse_kept (shortName_of_entry hentry) hp hwrite

theorem serverClosedir_kept (hp : serverBufferSize ≤ p.length)
    (h : serverClosedir os p = some (st, m)) : Kept p m := by
  simp only [serverClosedir, Option.bind_eq_bind, Option.bind_eq_some_iff, Prod.exists] at h
  obtain ⟨_, e, -, h⟩ := h
  apply respond_kept h
  intro hwrite
  exact writeResult_kept (.inl rfl) hp hwrite

/-- The response to a request to read, when its data and the end marker fit. -/
theorem serverRead_kept (hp : serverBufferSize ≤ p.length)
    (hfits : ∀ fd count, remotefsReadReadRequest p = some ((fd, count), ELUARPC_OK) →
      ∃ d, os.read fd count = some d ∧ 23 + d.length ≤ serverBufferSize)
    (h : serverRead os p = some (st, m)) : Kept p m := by
  simp only [serverRead, Option.bind_eq_bind, Option.bind_eq_some_iff, Prod.exists] at h
  obtain ⟨fd, count, e, hread, h⟩ := h
  cases e with
  | ELUARPC_ERR =>
      obtain ⟨-, rfl⟩ := Prod.mk.inj (Option.some.inj h)
      exact .refl p
  | ELUARPC_OK =>
      obtain ⟨d, hd, hfit⟩ := hfits fd count hread
      have h32 : d.length < 2 ^ 32 := by
        have hle := os.read_le fd count d hd
        have hlt := count.toNat_lt
        omega
      have hroom : 17 + d.length ≤ p.length := by omega
      have hat : At (splice p 17 d) 17 d := at_splice (by omega)
      have hdata : Kept p (splice p 17 d) :=
        kept_of_drop (show 17 + d.length ≤ serverBufferSize by omega) (splice_length hroom)
          (drop_splice hroom)
      have hpacket : Kept (splice p 17 d)
          (packetBytes [.response 3, .ptr d] ++ (splice p 17 d).drop (23 + d.length)) := by
        rw [← readResponse_size]
        exact kept_packet (readResponse_size d ▸ hfit) ((splice_length hroom).symm ▸ hp)
      apply respond_kept h
      simp only [serverReadData, hd, ELUARPC_READ_BUF_OFFSET, storeAll_eq_splice hroom,
        Option.map_some, Option.bind_some, remotefsReadWriteResponse]
      rw [genWrite_rp_of_at hat h32 _ (by rw [splice_length hroom]; omega), Option.some.injEq]
      rintro rfl
      exact hdata.trans hpacket

theorem serverExecuteRequest_kept (hp : serverBufferSize ≤ p.length)
    (hfits : ∀ fd count, remotefsReadReadRequest p = some ((fd, count), ELUARPC_OK) →
      ∃ d, os.read fd count = some d ∧ 23 + d.length ≤ serverBufferSize)
    (h : serverExecuteRequest os basedir p = some (st, m)) : Kept p m := by
  simp only [serverExecuteRequest, Option.bind_eq_bind, Option.bind_eq_some_iff, Prod.exists] at h
  obtain ⟨req, e, -, h⟩ := h
  split at h
  · obtain ⟨-, rfl⟩ := Prod.mk.inj (Option.some.inj h)
    exact .refl p
  · split at h
    · obtain ⟨handler, hhandler, h⟩ := Option.bind_eq_some_iff.mp h
      have hmem := List.mem_of_getElem? hhandler
      simp only [serverHandlers, List.mem_cons, List.not_mem_nil, or_false] at hmem
      rcases hmem with rfl | rfl | rfl | rfl | rfl | rfl | rfl | rfl
      · exact serverOpen_kept hp h
      · exact serverWrite_kept hp h
      · exact serverRead_kept hp hfits h
      · exact serverClose_kept hp h
      · exact serverLseek_kept hp h
      · exact serverOpendir_kept hp h
      · exact serverReaddir_kept hp h
      · exact serverClosedir_kept hp h
    · obtain ⟨-, rfl⟩ := Prod.mk.inj (Option.some.inj h)
      exact .refl p

end Handlers

/-- Executing the request in the buffer stores nothing behind it, whatever stands
there. -/
def ExecInside (os : OsIo) (basedir b : List UInt8) : Prop :=
  ∀ beyond st m, serverExecuteRequest os basedir (b ++ beyond) = some (st, m) →
    m.drop b.length = beyond

/-- The host answers a request to read, if there is one in the buffer, with data that
fits the response: 17 bytes stand before the data and 6 behind it. -/
def ReadFits (os : OsIo) (b : List UInt8) : Prop :=
  ∀ fd count, remotefsReadReadRequest b = some ((fd, count), ELUARPC_OK) →
    ∃ d, os.read fd count = some d ∧ 23 + d.length ≤ serverBufferSize

section Execute

variable {os : OsIo} {basedir b : List UInt8}

theorem kept_of_readFits {p m : List UInt8} {st : ServerStatus}
    (hp : serverBufferSize ≤ p.length) (h : ReadFits os (p.take serverBufferSize))
    (hexec : serverExecuteRequest os basedir p = some (st, m)) : Kept p m := by
  have h28 : 28 ≤ (p.take serverBufferSize).length := by
    rw [List.length_take_of_le hp]
    decide
  apply serverExecuteRequest_kept hp _ hexec
  intro fd count hread
  rw [← List.take_append_drop serverBufferSize p] at hread
  exact h fd count ((readReadRequest_left h28).mp hread)

theorem execInside_of_readFits (hb : b.length = serverBufferSize) (h : ReadFits os b) :
    ExecInside os basedir b := by
  intro beyond st m hexec
  have hp : serverBufferSize ≤ (b ++ beyond).length := by
    rw [List.length_append, hb]
    exact Nat.le_add_right _ _
  have hfits : ReadFits os ((b ++ beyond).take serverBufferSize) := by
    rw [← hb, List.take_left]
    exact h
  rw [hb, (kept_of_readFits hp hfits hexec).2, ← hb, List.drop_left]

/-- The last byte of a packet. -/
theorem packetBytes_getLast? (fs : List Field) : (packetBytes fs).getLast? = some 0xE7 := by
  have hend : TYPE_END :: TYPE_INT_32 :: Word.bytes32 (~~~PACKET_SIG) =
      [TYPE_END, TYPE_INT_32, 0x7B, 0x3D, 0x50] ++ [0xE7] := rfl
  rw [packetBytes, packetTail, hend, ← List.append_assoc, ← List.append_assoc,
    List.getLast?_concat]

/-- A response that is longer than the buffer. -/
theorem not_zeros_of_packet {fs : List Field} {rest : List UInt8} {n : Nat}
    (hlong : serverBufferSize < packetSize fs) :
    (packetBytes fs ++ rest).drop serverBufferSize ≠ List.replicate n 0 := by
  intro h
  have hlast : 0xE7 ∈ (packetBytes fs).drop serverBufferSize := by
    apply List.mem_of_getLast?
    rw [List.getLast?_drop, if_neg (by rw [packetBytes_length]; omega), packetBytes_getLast?]
  have hmem : 0xE7 ∈ (packetBytes fs ++ rest).drop serverBufferSize := by
    rw [List.drop_append_of_le_length (by rw [packetBytes_length]; omega)]
    exact List.mem_append_left _ hlast
  rw [h] at hmem
  exact absurd (List.eq_of_mem_replicate hmem) (by decide)

theorem serverExecuteRequest_read {p : List UInt8} {fd count : UInt32}
    (h : remotefsReadReadRequest p = some ((fd, count), ELUARPC_OK)) :
    serverExecuteRequest os basedir p =
      ((serverReadData os p fd count).bind fun r => remotefsReadWriteResponse r.1 r.2).map
        (SERVER_OK, ·) := by
  have hid := eluarpcGetRequestId_of_at (readReadRequest_iff.mp h)
  simp only [serverExecuteRequest, hid, Option.bind_eq_bind, Option.bind_some, reduceCtorEq,
    if_false]
  rw [if_pos (by decide)]
  change serverRead os p = _
  rw [serverRead, h]
  rfl

/-- The response to a request to read, with enough memory behind the buffer.  The data
that a failed read claims to have are the bytes that stand there. -/
theorem exists_readResponse {p : List UInt8} {fd count : UInt32}
    (h : remotefsReadReadRequest p = some ((fd, count), ELUARPC_OK))
    (hp : 2 ^ 32 + 64 ≤ p.length) :
    ∃ d rest, serverExecuteRequest os basedir p =
        some (SERVER_OK, packetBytes [.response 3, .ptr d] ++ rest) ∧
      d.length = ((os.read fd count).map List.length).getD 4294967295 := by
  rw [serverExecuteRequest_read h, serverReadData]
  cases hread : os.read fd count with
  | none =>
      have hlen : (slice p 17 4294967295).length = 4294967295 := slice_length (by omega)
      have hn : minusOne = (slice p 17 4294967295).length.toUInt32 := by
        rw [hlen]
        rfl
      have hwrite := genWrite_rp_of_at (at_slice p 17 4294967295) (by rw [hlen]; decide) RFS_OP_READ
        (by rw [hlen]; omega)
      refine ⟨slice p 17 4294967295, p.drop (23 + (slice p 17 4294967295).length), ?_, hlen⟩
      dsimp only
      rw [Option.bind_some, remotefsReadWriteResponse, hn, hwrite]
      rfl
  | some d =>
      have h32 : d.length < 2 ^ 32 := by
        have hle := os.read_le fd count d hread
        have hlt := count.toNat_lt
        omega
      have hroom : 17 + d.length ≤ p.length := by omega
      have hat : At (splice p 17 d) 17 d := at_splice (by omega)
      refine ⟨d, (splice p 17 d).drop (23 + d.length), ?_, rfl⟩
      simp only [ELUARPC_READ_BUF_OFFSET, storeAll_eq_splice hroom, Option.map_some,
        Option.bind_some, remotefsReadWriteResponse]
      rw [genWrite_rp_of_at hat h32 _ (by rw [splice_length hroom]; omega)]
      rfl

theorem readFits_of_execInside (hb : b.length = serverBufferSize)
    (h : ExecInside os basedir b) : ReadFits os b := by
  intro fd count hread
  have h28 : 28 ≤ b.length := by
    rw [hb]
    decide
  by_contra hnone
  have hlong : ∀ n, 2 ^ 32 + 64 ≤ n → False := by
    intro n hn
    have hp : 2 ^ 32 + 64 ≤ (b ++ List.replicate n 0).length := by
      rw [List.length_append, List.length_replicate]
      omega
    obtain ⟨d, rest, hexec, hd⟩ := @exists_readResponse os basedir _ _ _
      ((readReadRequest_left h28).mpr hread) hp
    have hinside := h _ _ _ hexec
    rw [hb] at hinside
    refine not_zeros_of_packet ?_ hinside
    rw [readResponse_size]
    by_contra hfit
    cases hos : os.read fd count with
    | none =>
        rw [hos, Option.map_none, Option.getD_none] at hd
        simp only [serverBufferSize, MAX_PACKET_SIZE, ELUARPC_WRITE_REQUEST_EXTRA] at hfit
        omega
    | some d' =>
        rw [hos, Option.map_some, Option.getD_some] at hd
        exact hnone ⟨d', hos, by omega⟩
  exact hlong _ (Nat.le_refl _)

/-- **Executing a request.**  Nothing is stored behind the buffer exactly if what the host
reads fits the response. -/
theorem execInside_iff (hb : b.length = serverBufferSize) :
    ExecInside os basedir b ↔ ReadFits os b :=
  ⟨readFits_of_execInside hb, execInside_of_readFits hb⟩

end Execute

/-! ## The serial transport -/

/-- A round of the main loop: the bytes that arrive for the header and for the rest
of the packet, and the host in that round. -/
structure Round where
  head : List UInt8
  body : List UInt8
  os : OsIo

/-- One round of `ser_read_request_packet`: the memory, and whether it has a packet. -/
def serReceive (mem head body : List UInt8) : Option (List UInt8 × Bool) := do
  let mem ← Buffer.storeAll mem 0 (head.take ELUARPC_START_OFFSET)
  if head.length < ELUARPC_START_OFFSET then
    return (mem, false)
  let (size, e) ← eluarpcGetPacketSize mem
  if e = ELUARPC_ERR then
    return (mem, false)
  let rest := body.take (bytesAfterHeader size)
  let mem ← Buffer.storeAll mem ELUARPC_START_OFFSET rest
  return (mem, rest.length = bytesAfterHeader size)

/-- The memory after a round.  Sending the response stores nothing. -/
def serRound (basedir mem : List UInt8) (r : Round) : Option (List UInt8) := do
  let (mem, received) ← serReceive mem r.head r.body
  if received then
    let (_, mem) ← serverExecuteRequest r.os basedir mem
    return mem
  else
    return mem

/-- A round that stores nothing behind the buffer, whatever stands there. -/
def RoundInside (basedir b : List UInt8) (r : Round) : Prop :=
  ∀ beyond m received, serReceive (b ++ beyond) r.head r.body = some (m, received) →
    m.drop b.length = beyond ∧
      (received = true → ExecInside r.os basedir (m.take b.length))

/-- What arrives after a size header fits the buffer, and so does what the host reads
for it. -/
def RoundOk (b : List UInt8) (r : Round) : Prop :=
  ELUARPC_START_OFFSET ≤ r.head.length →
  ∀ size, eluarpcGetPacketSize (r.head.take ELUARPC_START_OFFSET) = some (size, ELUARPC_OK) →
    ELUARPC_START_OFFSET + min (bytesAfterHeader size) r.body.length ≤ serverBufferSize ∧
      (bytesAfterHeader size ≤ r.body.length →
        ReadFits r.os (splice b 0 (r.head.take ELUARPC_START_OFFSET ++
          r.body.take (bytesAfterHeader size))))

/-- How a packet is received, whatever is made of it. -/
theorem receive_eq {α : Type} (f : Bool → List UInt8 → α) (mem stream : List UInt8) :
    (do
      let mem ← Buffer.storeAll mem 0 (stream.take ELUARPC_START_OFFSET)
      if stream.length < ELUARPC_START_OFFSET then
        return f false mem
      let (size, e) ← eluarpcGetPacketSize mem
      if e = ELUARPC_ERR then
        return f false mem
      let rest := (stream.drop ELUARPC_START_OFFSET).take (bytesAfterHeader size)
      let mem ← Buffer.storeAll mem ELUARPC_START_OFFSET rest
      if rest.length ≠ bytesAfterHeader size then
        return f false mem
      return f true mem) =
      (serReceive mem (stream.take ELUARPC_START_OFFSET) (stream.drop ELUARPC_START_OFFSET)).map
        fun r => f r.2 r.1 := by
  have hshort : (stream.take ELUARPC_START_OFFSET).length < ELUARPC_START_OFFSET ↔
      stream.length < ELUARPC_START_OFFSET := by
    rw [List.length_take]
    omega
  simp only [serReceive, List.take_take, Nat.min_self, hshort, Option.bind_eq_bind,
    Option.pure_def]
  cases Buffer.storeAll mem 0 (stream.take ELUARPC_START_OFFSET) with
  | none => rfl
  | some mem =>
      rw [Option.bind_some, Option.bind_some]
      by_cases hlt : stream.length < ELUARPC_START_OFFSET
      · rw [if_pos hlt, if_pos hlt]
        rfl
      · rw [if_neg hlt, if_neg hlt]
        cases eluarpcGetPacketSize mem with
        | none => rfl
        | some r =>
            obtain ⟨size, e⟩ := r
            cases e with
            | ELUARPC_ERR => rfl
            | ELUARPC_OK =>
                simp only [Option.bind_some, reduceCtorEq, if_false]
                cases Buffer.storeAll mem ELUARPC_START_OFFSET
                    ((stream.drop ELUARPC_START_OFFSET).take (bytesAfterHeader size)) with
                | none => rfl
                | some mem =>
                    rw [Option.bind_some, Option.bind_some, Option.map_some]
                    by_cases hall : ((stream.drop ELUARPC_START_OFFSET).take
                        (bytesAfterHeader size)).length = bytesAfterHeader size
                    · rw [decide_eq_true hall, if_neg (not_not_intro hall)]
                    · rw [decide_eq_false hall, if_pos hall]

/-- The round that `serveRequest` makes of a stream. -/
theorem serReadRequestPacket_eq (mem stream : List UInt8) :
    serReadRequestPacket mem stream =
      (serReceive mem (stream.take ELUARPC_START_OFFSET) (stream.drop ELUARPC_START_OFFSET)).map
        fun r => if r.2 then some r.1 else none :=
  receive_eq (fun received mem => if received then some mem else none) mem stream

section Receive

variable {b beyond head body : List UInt8}

theorem splice_append_left {p : Nat} {xs : List UInt8} (h : p + xs.length ≤ b.length) :
    splice (b ++ beyond) p xs = splice b p xs ++ beyond := by
  rw [splice, splice, List.take_append_of_le_length (by omega),
    List.drop_append_of_le_length h, List.append_assoc, List.append_assoc, List.append_assoc]

/-- The size in a header, whatever follows it. -/
theorem getPacketSize_append {xs rest : List UInt8} (h : xs.length = ELUARPC_START_OFFSET) :
    eluarpcGetPacketSize (xs ++ rest) = eluarpcGetPacketSize xs := by
  match xs, h with
  | [a, b, lo, hi], _ =>
      rw [getPacketSize_cons a b lo hi []]
      exact getPacketSize_cons a b lo hi rest

theorem exists_getPacketSize {xs : List UInt8} (h : xs.length = ELUARPC_START_OFFSET) :
    ∃ size e, eluarpcGetPacketSize xs = some (size, e) := by
  match xs, h with
  | [a, b, lo, hi], _ => exact ⟨_, _, getPacketSize_cons a b lo hi []⟩

theorem header_le (hb : b.length = serverBufferSize) : ELUARPC_START_OFFSET ≤ b.length :=
  hb ▸ (by decide : ELUARPC_START_OFFSET ≤ serverBufferSize)

/-- Without a size header only the bytes of the header are stored. -/
theorem serReceive_of_no_header (hb : ELUARPC_START_OFFSET ≤ b.length)
    (h : ELUARPC_START_OFFSET ≤ head.length → ∀ size,
      eluarpcGetPacketSize (head.take ELUARPC_START_OFFSET) ≠ some (size, ELUARPC_OK)) :
    ∃ b', serReceive (b ++ beyond) head body = some (b' ++ beyond, false) ∧
      b'.length = b.length := by
  have h4 : (head.take ELUARPC_START_OFFSET).length ≤ 4 := List.length_take_le _ _
  have hin : 0 + (head.take ELUARPC_START_OFFSET).length ≤ b.length := by
    rw [Nat.zero_add]
    exact Nat.le_trans h4 hb
  have hroom : 0 + (head.take ELUARPC_START_OFFSET).length ≤ (b ++ beyond).length := by
    rw [List.length_append]
    omega
  refine ⟨splice b 0 (head.take ELUARPC_START_OFFSET), ?_, splice_length hin⟩
  simp only [serReceive, storeAll_eq_splice hroom, splice_append_left hin, Option.bind_eq_bind,
    Option.bind_some, Option.pure_def]
  by_cases hlt : head.length < ELUARPC_START_OFFSET
  · rw [if_pos hlt]
  · have hfull : (head.take ELUARPC_START_OFFSET).length = ELUARPC_START_OFFSET :=
      List.length_take_of_le (by omega)
    have hsize : eluarpcGetPacketSize (splice b 0 (head.take ELUARPC_START_OFFSET) ++ beyond) =
        eluarpcGetPacketSize (head.take ELUARPC_START_OFFSET) := by
      rw [splice, List.take_zero, List.nil_append, List.append_assoc, getPacketSize_append hfull]
    obtain ⟨size, e, he⟩ := exists_getPacketSize hfull
    cases e with
    | ELUARPC_OK => exact absurd he (h (by omega) size)
    | ELUARPC_ERR => rw [if_neg hlt, hsize, he, Option.bind_some, if_pos rfl]

/-- After a size header the bytes that arrive are stored behind it. -/
theorem serReceive_of_header (hb : ELUARPC_START_OFFSET ≤ b.length)
    (hhead : ELUARPC_START_OFFSET ≤ head.length) {size : UInt16}
    (h : eluarpcGetPacketSize (head.take ELUARPC_START_OFFSET) = some (size, ELUARPC_OK)) :
    serReceive (b ++ beyond) head body =
      (storeAll (b ++ beyond) 0 (head.take ELUARPC_START_OFFSET ++
        body.take (bytesAfterHeader size))).map
          (·, decide (bytesAfterHeader size ≤ body.length)) := by
  have hfull : (head.take ELUARPC_START_OFFSET).length = ELUARPC_START_OFFSET :=
    List.length_take_of_le hhead
  have hroom : 0 + (head.take ELUARPC_START_OFFSET).length ≤ (b ++ beyond).length := by
    rw [List.length_append, hfull, Nat.zero_add]
    exact Nat.le_trans hb (Nat.le_add_right _ _)
  have hsize : eluarpcGetPacketSize (splice (b ++ beyond) 0 (head.take ELUARPC_START_OFFSET)) =
      some (size, ELUARPC_OK) := by
    rw [splice, List.take_zero, List.nil_append, getPacketSize_append hfull, h]
  have hall : (body.take (bytesAfterHeader size)).length = bytesAfterHeader size ↔
      bytesAfterHeader size ≤ body.length := by
    rw [List.length_take]
    omega
  simp only [serReceive, storeAll_append, storeAll_eq_splice hroom, hsize, hall, hfull,
    Nat.zero_add, Option.bind_eq_bind, Option.bind_some, Option.pure_def, reduceCtorEq, if_false,
    if_neg (Nat.not_lt.mpr hhead)]
  cases storeAll _ _ _ with
  | none => rfl
  | some mem => rfl

end Receive

section Rounds

variable {basedir b : List UInt8} {r : Round}

theorem roundInside_of_roundOk (hb : b.length = serverBufferSize) (h : RoundOk b r) :
    RoundInside basedir b r := by
  intro beyond m received hreceive
  by_cases hheader : ELUARPC_START_OFFSET ≤ r.head.length ∧
      ∃ size, eluarpcGetPacketSize (r.head.take ELUARPC_START_OFFSET) = some (size, ELUARPC_OK)
  · obtain ⟨hhead, size, hsize⟩ := hheader
    obtain ⟨hfit, hread⟩ := h hhead size hsize
    have hin : 0 + (r.head.take ELUARPC_START_OFFSET ++
        r.body.take (bytesAfterHeader size)).length ≤ b.length := by
      rw [List.length_append, List.length_take_of_le hhead, List.length_take, hb]
      omega
    have hroom : 0 + (r.head.take ELUARPC_START_OFFSET ++
        r.body.take (bytesAfterHeader size)).length ≤ (b ++ beyond).length :=
      Nat.le_trans hin (List.length_append ▸ Nat.le_add_right _ _)
    rw [serReceive_of_header (header_le hb) hhead hsize, storeAll_eq_splice hroom, splice_append_left hin,
      Option.map_some, Option.some.injEq] at hreceive
    obtain ⟨rfl, rfl⟩ := Prod.mk.inj hreceive
    rw [← splice_length hin, List.drop_left, List.take_left]
    refine ⟨rfl, fun hall => ?_⟩
    exact execInside_of_readFits ((splice_length hin).trans hb) (hread (of_decide_eq_true hall))
  · have hno : ELUARPC_START_OFFSET ≤ r.head.length → ∀ size,
        eluarpcGetPacketSize (r.head.take ELUARPC_START_OFFSET) ≠ some (size, ELUARPC_OK) :=
      fun hhead size hsize => hheader ⟨hhead, size, hsize⟩
    obtain ⟨b', hreceive', hlen⟩ := @serReceive_of_no_header _ beyond _ r.body (header_le hb) hno
    rw [hreceive', Option.some.injEq] at hreceive
    obtain ⟨rfl, rfl⟩ := Prod.mk.inj hreceive
    rw [← hlen, List.drop_left]
    exact ⟨rfl, nofun⟩

/-- Stores over a whole memory. -/
theorem storeAll_all {mem xs : List UInt8} (h : mem.length = xs.length) :
    storeAll mem 0 xs = some xs := by
  rw [storeAll_eq_splice (by omega), splice, List.take_zero, List.nil_append, Nat.zero_add,
    List.drop_of_length_le (Nat.le_of_eq h), List.append_nil]

/-- Bytes that differ from what is stored over them. -/
theorem map_add_one_ne {xs : List UInt8} (h : xs ≠ []) : xs.map (· + 1) ≠ xs := by
  cases xs with
  | nil => exact absurd rfl h
  | cons x xs =>
      intro heq
      have hhead : x + 1 = x := (List.cons.inj heq).1
      exact absurd hhead (by simp)

theorem roundOk_of_roundInside (hb : b.length = serverBufferSize)
    (h : RoundInside basedir b r) : RoundOk b r := by
  intro hhead size hsize
  have hlen : (r.head.take ELUARPC_START_OFFSET ++
      r.body.take (bytesAfterHeader size)).length =
        ELUARPC_START_OFFSET + min (bytesAfterHeader size) r.body.length := by
    rw [List.length_append, List.length_take_of_le hhead, List.length_take]
  have hfit : ELUARPC_START_OFFSET + min (bytesAfterHeader size) r.body.length ≤
      serverBufferSize := by
    by_contra hlong
    have hover : (r.head.take ELUARPC_START_OFFSET ++
        r.body.take (bytesAfterHeader size)).drop serverBufferSize ≠ [] := by
      rw [Ne, List.drop_eq_nil_iff, hlen]
      exact hlong
    have hreceive := @serReceive_of_header _
      (((r.head.take ELUARPC_START_OFFSET ++
        r.body.take (bytesAfterHeader size)).drop serverBufferSize).map (· + 1))
      _ r.body (header_le hb) hhead _ hsize
    rw [storeAll_all (by rw [List.length_append, List.length_map, List.length_drop, hb]; omega),
      Option.map_some] at hreceive
    have hinside := (h _ _ _ hreceive).1
    rw [hb] at hinside
    exact map_add_one_ne hover hinside.symm
  refine ⟨hfit, fun hall => ?_⟩
  have hin : 0 + (r.head.take ELUARPC_START_OFFSET ++
      r.body.take (bytesAfterHeader size)).length ≤ b.length := by
    rw [hlen, hb, Nat.zero_add]
    exact hfit
  have hreceive : serReceive (b ++ []) r.head r.body = _ :=
    serReceive_of_header (header_le hb) hhead hsize
  rw [storeAll_eq_splice (by rw [List.append_nil]; exact hin), splice_append_left hin,
    Option.map_some] at hreceive
  have hexec := (h [] _ _ hreceive).2 (decide_eq_true hall)
  rw [← splice_length hin, List.take_left] at hexec
  exact readFits_of_execInside ((splice_length hin).trans hb) hexec

/-- **A round.**  Nothing is stored behind the buffer exactly if what arrives for it fits
the buffer, and what the host reads for it. -/
theorem roundInside_iff (hb : b.length = serverBufferSize) :
    RoundInside basedir b r ↔ RoundOk b r :=
  ⟨roundOk_of_roundInside hb, roundInside_of_roundOk hb⟩

theorem storeAll_length {mem mem' xs : List UInt8} {p : Nat}
    (h : storeAll mem p xs = some mem') : mem'.length = mem.length := by
  obtain ⟨rfl, hfits⟩ := storeAll_eq_some h
  by_cases hnil : xs = []
  · rw [hnil, splice_nil]
  · exact splice_length (hfits hnil)

theorem serReceive_length {mem m head body : List UInt8} {received : Bool}
    (h : serReceive mem head body = some (m, received)) : m.length = mem.length := by
  simp only [serReceive, Option.bind_eq_bind, Option.bind_eq_some_iff, Option.pure_def] at h
  obtain ⟨m₁, hhead, h⟩ := h
  have hlen := storeAll_length hhead
  split at h
  · obtain ⟨rfl, -⟩ := Prod.mk.inj (Option.some.inj h)
    exact hlen
  · obtain ⟨⟨size, e⟩, -, h⟩ := Option.bind_eq_some_iff.mp h
    split at h
    · obtain ⟨rfl, -⟩ := Prod.mk.inj (Option.some.inj h)
      exact hlen
    · obtain ⟨m₂, hbody, h⟩ := Option.bind_eq_some_iff.mp h
      obtain ⟨rfl, -⟩ := Prod.mk.inj (Option.some.inj h)
      exact (storeAll_length hbody).trans hlen

/-- What stands behind the buffer stays as it is in a round that is ok. -/
theorem serRound_kept {mem mem' : List UInt8} (hmem : serverBufferSize ≤ mem.length)
    (hok : RoundOk (mem.take serverBufferSize) r) (h : serRound basedir mem r = some mem') :
    Kept mem mem' := by
  have hb : (mem.take serverBufferSize).length = serverBufferSize := List.length_take_of_le hmem
  have hinside := @roundInside_of_roundOk basedir _ _ hb hok (mem.drop serverBufferSize)
  rw [List.take_append_drop, hb] at hinside
  simp only [serRound, Option.bind_eq_bind, Option.bind_eq_some_iff, Prod.exists] at h
  obtain ⟨m, received, hreceive, h⟩ := h
  obtain ⟨hdrop, hexec⟩ := hinside m received hreceive
  have hlen := serReceive_length hreceive
  have hreceived : Kept mem m := ⟨hlen, hdrop⟩
  cases received with
  | false => exact Option.some.inj h ▸ hreceived
  | true =>
      rw [if_pos rfl, Option.bind_eq_some_iff] at h
      obtain ⟨⟨st, m'⟩, hserve, h⟩ := h
      have hm : serverBufferSize ≤ m.length := hlen.symm ▸ hmem
      have hfits := readFits_of_execInside (List.length_take_of_le hm) (hexec rfl)
      exact Option.some.inj h ▸ hreceived.trans (kept_of_readFits hm hfits hserve)

/-- The rounds of a session. -/
theorem session_kept {beyond mem' : List UInt8} {rounds : List Round}
    (hb : b.length = serverBufferSize)
    (hok : Transition.Conforming (serRound basedir)
      (fun mem r => RoundOk (mem.take serverBufferSize) r) (b ++ beyond) rounds)
    (hrun : Transition.run (serRound basedir) (b ++ beyond) rounds = some mem') :
    mem'.drop serverBufferSize = beyond := by
  have hmem : serverBufferSize ≤ (b ++ beyond).length := by
    rw [List.length_append, hb]
    exact Nat.le_add_right _ _
  have hkept : Kept (b ++ beyond) mem' := by
    refine Transition.invariant_of_run (fun mem r mem' hinv hok h => ?_) (.refl _) hok hrun
    exact hinv.trans (serRound_kept (hinv.1.symm ▸ hmem) hok h)
  rw [hkept.2, ← hb, List.drop_left]

end Rounds

/-! ## The memory transport -/

namespace Memory

/-- A byte that arrives, with the host if it completes a request and what the request
leaves in the buffer. -/
structure Arrival where
  c : UInt8
  os : OsIo
  left : RfsBuffer

def arrive (s : Mem) (a : Arrival) : Option Mem :=
  step (fun _ => a.left) s a.c

/-- A byte for which nothing is stored outside of the buffer. -/
def MemInside (basedir : List UInt8) (s : Mem) (a : Arrival) : Prop :=
  ∃ s' res, rfsMemReadRequestPacket s (some a.c) = some (s', res) ∧
    (rfsMemHasResponse s' = true → ExecInside a.os basedir s'.rfsBuffer.1)

/-- There is room for a byte of a request, and for what the host reads when it is the
last one. -/
def MemOk (s : Mem) (a : Arrival) : Prop :=
  s.readState = .MEM_STATE_READ_REQUEST →
    ELUARPC_START_OFFSET + s.readLen < serverBufferSize ∧
      (((s.readLen + 1 : Nat) : Int) = s.expectedLen →
        ReadFits a.os (s.rfsBuffer.set (ELUARPC_START_OFFSET + s.readLen) a.c).1)

variable {basedir : List UInt8} {s s' : Mem} {a : Arrival}

theorem memInside_iff (h : Shape s) : MemInside basedir s a ↔ MemOk s a := by
  obtain ⟨b, n, e, st, fl⟩ := s
  obtain ⟨hflag, hlen⟩ := h
  cases hflag
  cases st with
  | MEM_STATE_REQUEST_DONE => exact iff_of_true ⟨_, _, rfl, nofun⟩ nofun
  | MEM_STATE_READ_LENGTH =>
      have hn : n < serverBufferSize := Nat.lt_trans (hlen rfl) (by decide)
      refine iff_of_true ?_ nofun
      have hput := put_eq hn b a.c
      by_cases hlast : n + 1 = ELUARPC_START_OFFSET
      · obtain ⟨b0, b1, lo, hi, rest, hbytes⟩ := buffer_eq (b.set n a.c)
        have hsize := getPacketSize_cons b0 b1 lo hi rest
        rw [← hbytes] at hsize
        simp only [MemInside, rfsMemReadRequestPacket, hput, Option.bind_some, if_pos hlast, hsize,
          Option.map_some, Option.some.injEq]
        split
        · exact ⟨_, _, rfl, nofun⟩
        · exact ⟨_, _, rfl, nofun⟩
      · refine ⟨⟨b.set n a.c, n + 1, e, .MEM_STATE_READ_LENGTH, false⟩, 1, ?_, nofun⟩
        simp only [rfsMemReadRequestPacket, hput, Option.bind_some, if_neg hlast]
  | MEM_STATE_READ_REQUEST =>
      by_cases hin : ELUARPC_START_OFFSET + n < serverBufferSize
      · have hput := put_eq hin b a.c
        have hexec := @execInside_iff a.os basedir _
          (b.set (ELUARPC_START_OFFSET + n) a.c).2
        simp only [MemInside, MemOk, rfsMemReadRequestPacket, hput, Option.map_some,
          Option.some.injEq, forall_const, hin, true_and]
        by_cases hlast : ((n + 1 : Nat) : Int) = e
        · rw [if_pos hlast]
          constructor
          · rintro ⟨s', res, heq, hinside⟩ -
            obtain ⟨rfl, -⟩ := Prod.mk.inj heq
            exact hexec.mp (hinside rfl)
          · intro hfits
            exact ⟨_, _, rfl, fun _ => hexec.mpr (hfits hlast)⟩
        · rw [if_neg hlast]
          exact iff_of_true ⟨_, _, rfl, nofun⟩ fun h => absurd h hlast
      · refine iff_of_false ?_ fun hok => hin (hok rfl).1
        rintro ⟨s', res, hread, -⟩
        simp only [rfsMemReadRequestPacket, put, if_neg hin, Option.map_none, reduceCtorEq] at hread

theorem shape_arrive (h : Shape s) (harrive : arrive s a = some s') : Shape s' := by
  obtain ⟨⟨s₁, out⟩, hserve, rfl⟩ := Option.map_eq_some_iff.mp harrive
  by_cases hgood : Good s
  · obtain ⟨s₂, out', hserve', hshape, -⟩ := serve_good (f := fun _ => a.left) hgood a.c
    rw [hserve, Option.some.injEq] at hserve'
    obtain ⟨rfl, -⟩ := Prod.mk.inj hserve'
    exact hshape
  · exact (serve_bad h hgood hserve).2.1

end Memory

/-- **The server's stores.**  A round over the serial line stores nothing behind the
buffer exactly if what arrives after the size header fits the buffer and the host's answer to
a request to read fits the response; rounds of this kind leave what stands there as it is
for as long as the server runs.  Of the bytes that the memory transport gets each
is stored in the buffer, and each request that they complete is executed in it,
exactly if there is room for every byte and for what the host reads. -/
theorem stores_inside_iff (basedir : List UInt8) (b : Memory.RfsBuffer) :
    (∀ r, RoundInside basedir b.1 r ↔ RoundOk b.1 r) ∧
      (∀ rounds beyond mem',
        Transition.Conforming (serRound basedir)
          (fun mem r => RoundOk (mem.take serverBufferSize) r) (b.1 ++ beyond) rounds →
        Transition.run (serRound basedir) (b.1 ++ beyond) rounds = some mem' →
          mem'.drop serverBufferSize = beyond) ∧
      ∀ bytes : List Memory.Arrival,
        Transition.Conforming Memory.arrive (Memory.MemInside basedir) (Memory.Mem.init b) bytes ↔
          Transition.Conforming Memory.arrive Memory.MemOk (Memory.Mem.init b) bytes := by
  refine ⟨fun r => roundInside_iff b.2, fun rounds beyond mem' hok hrun => ?_, fun bytes => ?_⟩
  · exact session_kept b.2 hok hrun
  · exact Transition.conforming_congr (fun s a s' => Memory.shape_arrive)
      (fun s a => Memory.memInside_iff) (Memory.good_init b).shape

/-- A packet whose size field is smaller than its header. -/
def shortPacket : Round :=
  ⟨[0xA5, 2, 2, 0], List.replicate 4122 0, failingOs⟩

/-- Its size less the header's is a length of nearly 2^32 bytes. -/
theorem not_stores_inside : ¬RoundInside [47] Memory.RfsBuffer.zeros.1 shortPacket := by
  intro h
  have hok := (roundInside_iff Memory.RfsBuffer.zeros.2).mp h
  have hsize : eluarpcGetPacketSize (shortPacket.head.take ELUARPC_START_OFFSET) =
      some (2, ELUARPC_OK) := by decide
  have hfit := (hok (by decide) 2 hsize).1
  have hbytes : bytesAfterHeader 2 = 4294967294 := by decide
  have hlen : shortPacket.body.length = 4122 := List.length_replicate
  rw [hbytes, hlen] at hfit
  exact absurd hfit (by decide)

end Rfs
