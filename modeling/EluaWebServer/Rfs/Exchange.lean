import EluaWebServer.Rfs.Client

/-!
# One exchange between client and server

A packet that the client sends arrives at the start of the server's buffer,
its operation id selects the handler, and the packet that the handler leaves
in the buffer arrives at the start of the client's buffer, or past its end
when it is too long.
-/

namespace Rfs

open Rpc Buffer

/-! ## Packets in a buffer -/

theorem take_packet (fs : List Field) (rest : List UInt8) :
    (packetBytes fs ++ rest).take (packetSize fs) = packetBytes fs := by
  rw [← packetBytes_length fs, List.take_left]

theorem getPacketSize_packet {fs : List Field} (h : packetSize fs ≤ 65535)
    (rest : List UInt8) :
    ∃ size, eluarpcGetPacketSize (packetBytes fs ++ rest) = some (size, ELUARPC_OK) ∧
      size.toNat = packetSize fs := by
  have hat : At (packetBytes fs ++ rest) 0 (packetBytes fs) := List.prefix_append _ _
  rw [packetBytes, at_append] at hat
  exact ⟨_, eluarpcGetPacketSize_of_at hat.1, Nat.mod_eq_of_lt (by omega)⟩

/-- The size in a header, and whether it is one. -/
theorem getPacketSize_cons (a b lo hi : UInt8) (rest : List UInt8) :
    eluarpcGetPacketSize (a :: b :: lo :: hi :: rest) =
      some (Word.ofBytes16 lo hi,
        if a = TYPE_PKT_SIZE ∧ b = TYPE_INT_16 then ELUARPC_OK else ELUARPC_ERR) := by
  by_cases ha : a = TYPE_PKT_SIZE
  · by_cases hb : b = TYPE_INT_16
    · subst ha hb
      rfl
    · rw [if_neg fun h => hb h.2]
      simp [eluarpcGetPacketSize, eluarpcReadExpect, eluarpcReadU16, Reader.next, ha, hb,
        Word.ofBytes16]
  · rw [if_neg fun h => ha h.1]
    by_cases hb : b = TYPE_INT_16 <;>
      simp [eluarpcGetPacketSize, eluarpcReadExpect, eluarpcReadU16, Reader.next, ha, hb,
        Word.ofBytes16]

theorem bytesAfterHeader_eq {size : UInt16} (h : 4 ≤ size.toNat) :
    bytesAfterHeader size = size.toNat - 4 := by
  have hlt := size.toNat_lt
  have h4 : (ELUARPC_START_OFFSET.toUInt32).toNat = 4 := rfl
  rw [bytesAfterHeader, UInt32.toNat_sub_of_le]
  · rw [h4, UInt16.toNat_toUInt32]
  · rw [UInt32.le_iff_toNat_le, h4, UInt16.toNat_toUInt32]
    exact h

theorem sixteen_le_packetSize (fs : List Field) : 16 ≤ packetSize fs :=
  Nat.le_add_right 16 _

theorem drop_packet_length (fs : List Field) :
    ((packetBytes fs).drop 4).length = packetSize fs - 4 := by
  rw [List.length_drop, packetBytes_length]

/-- The header of a packet is stored first, and gives the number of bytes to
read after it. -/
theorem storeAll_header {mem : List UInt8} {fs : List Field} (hmem : 4 ≤ mem.length)
    (h16 : packetSize fs ≤ 65535) :
    ∃ size, storeAll mem 0 ((packetBytes fs).take 4) =
        some (splice mem 0 ((packetBytes fs).take 4)) ∧
      eluarpcGetPacketSize (splice mem 0 ((packetBytes fs).take 4)) =
        some (size, ELUARPC_OK) ∧
      bytesAfterHeader size = packetSize fs - 4 ∧
      ((packetBytes fs).drop 4).take (bytesAfterHeader size) = (packetBytes fs).drop 4 := by
  have hmin := sixteen_le_packetSize fs
  have hhdr : (packetBytes fs).take 4 = packetHeader (packetSize fs) := rfl
  have htake : ((packetBytes fs).take 4).length = 4 := rfl
  have hat : At (splice mem 0 ((packetBytes fs).take 4)) 0 (packetHeader (packetSize fs)) := by
    rw [hhdr, splice, List.take_zero, List.nil_append]
    exact List.prefix_append _ _
  have hval : (packetSize fs).toUInt16.toNat = packetSize fs := Nat.mod_eq_of_lt (by omega)
  have hafter : bytesAfterHeader (packetSize fs).toUInt16 = packetSize fs - 4 := by
    rw [bytesAfterHeader_eq (by omega), hval]
  refine ⟨_, storeAll_eq_splice (by omega), eluarpcGetPacketSize_of_at hat, hafter, ?_⟩
  rw [hafter, ← drop_packet_length, List.take_length]

/-- The rest of a packet that fits completes it at the start of the buffer. -/
theorem storeAll_rest {mem : List UInt8} {fs : List Field}
    (h : packetSize fs ≤ mem.length) :
    storeAll (splice mem 0 ((packetBytes fs).take 4)) 4 ((packetBytes fs).drop 4) =
      some (packetBytes fs ++ mem.drop (packetSize fs)) := by
  have hmin := sixteen_le_packetSize fs
  have hdrop := drop_packet_length fs
  have htake : ((packetBytes fs).take 4).length = 4 := rfl
  have hlen : (splice mem 0 ((packetBytes fs).take 4)).length = mem.length :=
    splice_length (by omega)
  have hjoin : splice (splice mem 0 ((packetBytes fs).take 4)) 4 ((packetBytes fs).drop 4) =
      splice mem 0 (packetBytes fs) := by
    have h4 := splice_splice (b := mem) (p := 0) ((packetBytes fs).take 4)
      ((packetBytes fs).drop 4) (by omega)
    rwa [Nat.zero_add, htake, List.take_append_drop] at h4
  rw [storeAll_eq_splice (by omega), hjoin, splice, List.take_zero, List.nil_append,
    Nat.zero_add, packetBytes_length]

/-- The rest of a packet that does not fit is stored past the buffer. -/
theorem storeAll_rest_eq_none {mem : List UInt8} {fs : List Field} (hmem : 4 ≤ mem.length)
    (h : mem.length < packetSize fs) :
    storeAll (splice mem 0 ((packetBytes fs).take 4)) 4 ((packetBytes fs).drop 4) = none := by
  have hdrop := drop_packet_length fs
  have htake : ((packetBytes fs).take 4).length = 4 := rfl
  have hlen : (splice mem 0 ((packetBytes fs).take 4)).length = mem.length :=
    splice_length (by omega)
  refine storeAll_eq_none (by omega) fun hnil => ?_
  rw [hnil, List.length_nil] at hdrop
  omega

/-! ## One exchange -/

section Exchange

variable {fs gs : List Field} {link : Link} {rest : List UInt8}

/-- The exchange of a request packet for a response packet: a response that
is longer than the client's buffer is stored past its end. -/
theorem rfschSendRequestReadResponse_packet (hfs : packetSize fs ≤ 65535)
    (hlink : link (packetBytes fs) = some (packetBytes gs)) (hgs : packetSize gs ≤ 65535) :
    rfschSendRequestReadResponse link (packetBytes fs ++ rest) =
      if packetSize gs ≤ (packetBytes fs ++ rest).length then
        some (CLIENT_OK, packetBytes gs ++ (packetBytes fs ++ rest).drop (packetSize gs))
      else none := by
  have hfmin := sixteen_le_packetSize fs
  have hgmin := sixteen_le_packetSize gs
  have hlen : (packetBytes fs ++ rest).length = packetSize fs + rest.length := by
    rw [List.length_append, packetBytes_length]
  have hle : ¬ (packetBytes fs ++ rest).length < packetSize fs := by omega
  have hshort : ¬ (packetBytes gs).length < 4 := by
    rw [packetBytes_length]
    omega
  have h4 : 4 ≤ (packetBytes fs ++ rest).length := by omega
  obtain ⟨n, hn, hval⟩ := getPacketSize_packet hfs rest
  obtain ⟨size, h₁, h₂, h₃, h₄⟩ := storeAll_header h4 hgs
  have hrest : ((packetBytes gs).drop 4).length = bytesAfterHeader size := by
    rw [drop_packet_length, h₃]
  simp only [rfschSendRequestReadResponse, ELUARPC_START_OFFSET, hn, hval, take_packet, hlink,
    h₁, h₂, h₄, hrest, hle, hshort, Option.bind_eq_bind, Option.bind_some, if_false,
    reduceCtorEq, ne_eq, not_true, Option.pure_def]
  by_cases hfit : packetSize gs ≤ (packetBytes fs ++ rest).length
  · rw [storeAll_rest hfit, if_pos hfit]
    rfl
  · rw [storeAll_rest_eq_none h4 (by omega), if_neg hfit]
    rfl

/-- A client function on a request that fits, answered by a packet. -/
theorem exchange_packet {α : Type} {client : List UInt8} {failed : α}
    {decode : List UInt8 → Option (α × ErrFlag)} (hfs : packetSize fs ≤ client.length)
    (hclient : client.length ≤ 65535)
    (hlink : link (packetBytes fs) = some (packetBytes gs)) (hgs : packetSize gs ≤ 65535)
    {r : α} (hdecode : ∀ rest, decode (packetBytes gs ++ rest) = some (r, ELUARPC_OK)) :
    exchange link (some (packetBytes fs ++ client.drop (packetSize fs))) failed decode =
      if packetSize gs ≤ client.length then some r else none := by
  have hlen : (packetBytes fs ++ client.drop (packetSize fs)).length = client.length := by
    rw [List.length_append, packetBytes_length, List.length_drop]
    omega
  rw [exchange, Option.bind_eq_bind, Option.bind_some,
    rfschSendRequestReadResponse_packet (by omega) hlink hgs, hlen]
  by_cases hfit : packetSize gs ≤ client.length
  · rw [if_pos hfit, if_pos hfit]
    simp [hdecode]
  · rw [if_neg hfit, if_neg hfit]
    rfl

/-- A client function whose peer goes wrong. -/
theorem exchange_eq_none {α : Type} {client : List UInt8} {failed : α}
    {decode : List UInt8 → Option (α × ErrFlag)} (hfs : packetSize fs ≤ client.length)
    (hclient : client.length ≤ 65535) (hlink : link (packetBytes fs) = none) :
    exchange link (some (packetBytes fs ++ client.drop (packetSize fs))) failed decode =
      none := by
  obtain ⟨n, hn, hval⟩ :=
    getPacketSize_packet (Nat.le_trans hfs hclient) (client.drop (packetSize fs))
  have hlen : (packetBytes fs ++ client.drop (packetSize fs)).length = client.length := by
    rw [List.length_append, packetBytes_length, List.length_drop]
    omega
  have hle : ¬ client.length < packetSize fs := by omega
  simp [exchange, rfschSendRequestReadResponse, hn, hval, take_packet, hlink, hlen, hle]

end Exchange

/-! ## One request at the server -/

section Serve

variable {os : OsIo} {basedir mem : List UInt8} {fs gs : List Field}

/-- The server on a request packet: it executes it and sends what stands in
its buffer. -/
theorem serveRequest_packet (hmem : packetSize fs ≤ mem.length)
    (hfs : packetSize fs ≤ 65535) :
    serveRequest os basedir mem (packetBytes fs) =
      (serverExecuteRequest os basedir (packetBytes fs ++ mem.drop (packetSize fs))).bind
        fun r => serSendResponsePacket r.2 := by
  have hmin := sixteen_le_packetSize fs
  have hshort : ¬ (packetBytes fs).length < 4 := by
    rw [packetBytes_length]
    omega
  have h4 : 4 ≤ mem.length := by omega
  obtain ⟨size, h₁, h₂, h₃, h₄⟩ := storeAll_header h4 hfs
  have hrest : ((packetBytes fs).drop 4).length = bytesAfterHeader size := by
    rw [drop_packet_length, h₃]
  have hread : serReadRequestPacket mem (packetBytes fs) =
      some (some (packetBytes fs ++ mem.drop (packetSize fs))) := by
    simp only [serReadRequestPacket, ELUARPC_START_OFFSET, h₁, h₂, h₄, hrest, hshort,
      storeAll_rest hmem, Option.bind_eq_bind, Option.bind_some, if_false, reduceCtorEq,
      ne_eq, not_true, Option.pure_def]
  rw [serveRequest, hread]
  rfl

theorem serSendResponsePacket_packet (hgs : packetSize gs ≤ 65535) (rest : List UInt8) :
    serSendResponsePacket (packetBytes gs ++ rest) = some (packetBytes gs) := by
  obtain ⟨n, hn, hval⟩ := getPacketSize_packet hgs rest
  have hle : packetSize gs ≤ (packetBytes gs ++ rest).length := by
    rw [List.length_append, packetBytes_length]
    omega
  simp only [serSendResponsePacket, hn, hval, take_packet, hle, Option.bind_eq_bind,
    Option.bind_some, reduceCtorEq, if_false, if_true]

/-- A request whose execution leaves a packet in the buffer is answered by
this packet. -/
theorem serveRequest_of_execute (hmem : packetSize fs ≤ mem.length)
    (hfs : packetSize fs ≤ 65535) (hgs : packetSize gs ≤ 65535) {rest : List UInt8}
    (hexec : serverExecuteRequest os basedir (packetBytes fs ++ mem.drop (packetSize fs)) =
      some (SERVER_OK, packetBytes gs ++ rest)) :
    serveRequest os basedir mem (packetBytes fs) = some (packetBytes gs) := by
  rw [serveRequest_packet hmem hfs, hexec, Option.bind_some]
  exact serSendResponsePacket_packet hgs rest

/-- The operation id of a request packet selects its handler. -/
theorem serverExecuteRequest_packet {op : UInt8} {fs : List Field} (rest : List UInt8)
    {handler : List UInt8 → Option (ServerStatus × List UInt8)}
    (hop : 1 ≤ op ∧ op ≤ 8)
    (hhandler : (serverHandlers os basedir)[(op - 1).toNat]? = some handler) :
    serverExecuteRequest os basedir (packetBytes (.op op :: fs) ++ rest) =
      handler (packetBytes (.op op :: fs) ++ rest) := by
  have hat : At (packetBytes (.op op :: fs) ++ rest) 0 (packetBytes (.op op :: fs)) :=
    List.prefix_append _ _
  rw [packetBytes, at_append] at hat
  have hid := eluarpcGetRequestId_of_at hat.2
  rw [← packetBytes] at hid
  have hrange : RFS_OP_FIRST.toUInt8 ≤ op ∧ op ≤ RFS_OP_LAST.toUInt8 := hop
  have hindex : (serverHandlers os basedir)[(op - RFS_OP_FIRST.toUInt8).toNat]? =
      some handler := hhandler
  simp only [serverExecuteRequest, hid, Option.bind_eq_bind, Option.bind_some, reduceCtorEq,
    if_false, hrange, and_self, if_true, hindex]

end Serve

end Rfs
