import EluaWebServer.Rfs.Exchange

/-!
# Transparency of the remote file system

The client function, the server's handler and the packets between them are
composed for each of the eight operations and compared with the result of the
host function.  They agree exactly when the result is `Carried`
(`rfs_transparent_iff`): a failed or too long `read`, a `readdir` whose file
cannot be opened or is opened as descriptor 0, and a `closedir` whose result
is not the handle do not come back.
-/

namespace Rfs

open Rpc Buffer Word

/-! ## The encoders -/

section Encoders

variable {p : List UInt8} {c : Char}

theorem writeResult_eq (hc : c = 'i' ∨ c = 'l' ∨ c = 'L') {op : UInt32} {id : UInt8}
    (hid : op.toUInt8 = id) (v : UInt32) (hp : 22 ≤ p.length) :
    writeResult c op p v = some (packetBytes [.response id, .int32 v] ++ p.drop 22) := by
  subst hid
  have hfields : fields? ['r', c] [.int op, .int v] =
      some [.response op.toUInt8, .int32 v] := by
    rcases hc with rfl | rfl | rfl <;> rfl
  exact eluarpcGenWrite_eq hfields hp

theorem writeArg_eq (hc : c = 'i' ∨ c = 'l' ∨ c = 'L') {op : UInt32} {id : UInt8}
    (hid : op.toUInt8 = id) (v : UInt32) (hp : 23 ≤ p.length) :
    writeArg c op p v = some (packetBytes [.op id, .int32 v] ++
      p.drop (packetSize [.op id, .int32 v])) := by
  subst hid
  have hfields : fields? ['o', c] [.int op, .int v] = some [.op op.toUInt8, .int32 v] := by
    rcases hc with rfl | rfl | rfl <;> rfl
  exact eluarpcGenWrite_eq hfields hp

/-- Everything of a `rp` packet between its header and its data. -/
def rpHeader (op n : UInt32) : List UInt8 :=
  (TYPE_START :: TYPE_INT_32 :: bytes32 PACKET_SIG) ++
    ([ELUARPC_OP_RES_MOD ||| op.toUInt8] ++ (TYPE_PTR :: TYPE_INT_32 :: bytes32 n))

theorem rpHeader_length (op n : UInt32) : (rpHeader op n).length = 13 := rfl

/-- The `rp` response: its data is copied when its source is not `NULL`. -/
theorem genWrite_rp (op n : UInt32) (src : Option (List UInt8)) :
    eluarpcGenWrite p ['r', 'p'] [.int op, .ptr src, .int n] =
      (Writer.putAll ⟨p, 4⟩ (rpHeader op n)).bind fun w =>
        (eluarpcCopySrc w src n.toNat).bind fun w => (eluarpcEndPacket w).map Writer.mem := by
  rw [eluarpcGenWrite, eluarpcStartPacket_eq, rpHeader, ← Writer.putAll_bind]
  cases Writer.putAll ⟨p, 4⟩ (TYPE_START :: TYPE_INT_32 :: bytes32 PACKET_SIG) with
  | none => rfl
  | some w =>
      rw [Option.bind_some, ← Writer.putAll_bind, Option.bind_eq_bind, Option.bind_some]
      simp only [eluarpcWriteFields, eluarpcWriteField, eluarpcWritePtr, Writer.put_eq,
        eluarpcWriteU32_eq, Option.bind_eq_bind]
      cases w.putAll [ELUARPC_OP_RES_MOD ||| op.toUInt8] with
      | none => rfl
      | some w =>
          have hhead : ((w.putAll [TYPE_PTR]).bind fun w =>
              w.putAll (TYPE_INT_32 :: bytes32 n)) =
              w.putAll (TYPE_PTR :: TYPE_INT_32 :: bytes32 n) :=
            Writer.putAll_bind w _ _
          simp only [Option.map_some, Option.bind_some, ← Option.bind_assoc, hhead]
          cases w.putAll (TYPE_PTR :: TYPE_INT_32 :: bytes32 n) with
          | none => rfl
          | some w =>
              simp only [Option.bind_some]
              cases eluarpcCopySrc w src n.toNat with
              | none => rfl
              | some w =>
                  simp only [Option.map_some, Option.bind_some]
                  cases eluarpcEndPacket w <;> rfl

/-- Storing bytes that stand there already only moves the pointer. -/
theorem putAll_of_at {mem d : List UInt8} {q : Nat} (hat : At mem q d)
    (hq : q + d.length ≤ mem.length) :
    Writer.putAll ⟨mem, q⟩ d = some ⟨mem, q + d.length⟩ := by
  have hsame := splice_slice hq
  rw [slice_of_at hat] at hsame
  rw [Writer.putAll, storeAll_eq_splice hq]
  simp only [hsame, Option.map_some]

/-- A `rp` response whose data stands in the buffer already is the packet that
copying it would give. -/
theorem genWrite_rp_of_at {d : List UInt8} (hd : At p 17 d) (h32 : d.length < 2 ^ 32)
    (op : UInt32) (hp : 23 + d.length ≤ p.length) :
    eluarpcGenWrite p ['r', 'p'] [.int op, .ptr none, .int d.length.toUInt32] =
      some (packetBytes [.response op.toUInt8, .ptr d] ++ p.drop (23 + d.length)) := by
  have hn : d.length.toUInt32.toNat = d.length := Nat.mod_eq_of_lt h32
  have hfields : fields? ['r', 'p'] [.int op, .ptr (some d), .int d.length.toUInt32] =
      some [.response op.toUInt8, .ptr d] := by
    simp [fields?, field?, hn]
  have hsize : packetSize [.response op.toUInt8, .ptr d] = 23 + d.length := by
    simp [packetSize, fieldsBytes, Field.bytes]
    omega
  have hcopy := eluarpcGenWrite_eq hfields (by rw [hsize]; exact hp)
  rw [hsize, genWrite_rp] at hcopy
  rw [genWrite_rp, ← hcopy]
  have hput : Writer.putAll ⟨p, 4⟩ (rpHeader op d.length.toUInt32) =
      some ⟨splice p 4 (rpHeader op d.length.toUInt32), 17⟩ := by
    rw [Writer.putAll, storeAll_eq_splice (show 4 + 13 ≤ p.length by omega)]
    rfl
  have hat : At (splice p 4 (rpHeader op d.length.toUInt32)) 17 d := by
    have hfit : 4 + (rpHeader op d.length.toUInt32).length ≤ p.length := by
      rw [rpHeader_length]
      omega
    have hdrop : (splice p 4 (rpHeader op d.length.toUInt32)).drop 17 = p.drop 17 :=
      drop_splice hfit
    rw [At, hdrop]
    exact hd
  have hlen : (splice p 4 (rpHeader op d.length.toUInt32)).length = p.length :=
    splice_length (show 4 + 13 ≤ p.length by omega)
  have hsame : Writer.putAll ⟨splice p 4 (rpHeader op d.length.toUInt32), 17⟩ d =
      some ⟨splice p 4 (rpHeader op d.length.toUInt32), 17 + d.length⟩ :=
    putAll_of_at hat (by omega)
  simp only [hput, Option.bind_some, eluarpcCopySrc, hn, Nat.le_refl, if_true,
    List.take_length, hsame]

/-- A `rp` response without room in the buffer. -/
theorem genWrite_rp_eq_none {op n : UInt32} (h : p.length < 23 + n.toNat) :
    eluarpcGenWrite p ['r', 'p'] [.int op, .ptr none, .int n] = none := by
  rw [genWrite_rp]
  by_cases h17 : 17 ≤ p.length
  · have hlen : (splice p 4 (rpHeader op n)).length = p.length :=
      splice_length (show 4 + 13 ≤ p.length by omega)
    rw [Writer.putAll, storeAll_eq_splice (show 4 + 13 ≤ p.length by omega)]
    simp only [Option.map_some, Option.bind_some, eluarpcCopySrc, rpHeader_length]
    rw [eluarpcEndPacket_eq_none (by simp only; omega)]
    rfl
  · rw [Writer.putAll, storeAll_eq_none (show p.length < 4 + 13 by omega) (by simp [rpHeader])]
    rfl

end Encoders

theorem cstringAt_of_at {buf : List UInt8} {o : Nat} {s : CString} (h : At buf o s.bytes) :
    cstringAt buf o = some s.chars := by
  obtain ⟨t, ht⟩ := h
  rw [CString.bytes, List.append_assoc] at ht
  have hmem : 0 ∈ buf.drop o := by
    rw [← ht]
    simp
  have htake : (buf.drop o).takeWhile (· ≠ 0) = s.chars := by
    have hall : ∀ c ∈ s.chars, decide (c ≠ 0) = true := by
      intro c hc
      exact decide_eq_true fun h0 => s.noNul (h0 ▸ hc)
    rw [← ht, List.takeWhile_append_of_pos hall]
    simp
  rw [cstringAt, if_pos hmem, htake]

theorem CString.bytes_ne_nil (s : CString) : s.bytes ≠ [] := by
  simp [bytes]

/-- The name that a decoded pointer to a terminated string designates. -/
theorem requestName_of_pointsTo {buf : List UInt8} {lim : Nat} {s : CString}
    {off : Option Nat} (h : PointsTo buf lim s.bytes off) :
    requestName buf off = some s.chars := by
  cases off with
  | none => exact absurd h s.bytes_ne_nil
  | some o => exact cstringAt_of_at h.2.1

/-! ## The server's path -/

/-- The base directory with the separator that a file name is appended to. -/
def pathPrefix (basedir : List UInt8) : List UInt8 :=
  let base := basedir.take PLATFORM_MAX_FNAME_LEN
  if base.getLast? = some PLATFORM_PATH_SEPARATOR then base
  else base ++ [PLATFORM_PATH_SEPARATOR]

/-- The name fits behind the base directory. -/
def FullnameFits (basedir name : List UInt8) : Prop :=
  name = [] ∨
    basedir ≠ [] ∧ (pathPrefix basedir).length + name.length ≤ PLATFORM_MAX_FNAME_LEN

/-- The path of a name that fits. -/
def joinPath (basedir name : List UInt8) : List UInt8 :=
  if name = [] then basedir.take PLATFORM_MAX_FNAME_LEN else pathPrefix basedir ++ name

theorem strncat_eq {pre name : List UInt8} (hpre : pre ≠ []) :
    strncat (PLATFORM_MAX_FNAME_LEN + 1) pre name PLATFORM_MAX_FNAME_LEN =
      if pre.length + name.length ≤ PLATFORM_MAX_FNAME_LEN then some (pre ++ name)
      else none := by
  have hpos := List.length_pos_of_ne_nil hpre
  unfold strncat
  by_cases hfit : pre.length + name.length ≤ PLATFORM_MAX_FNAME_LEN
  · have htake : name.take PLATFORM_MAX_FNAME_LEN = name :=
      List.take_of_length_le (by omega)
    rw [htake, if_pos (by omega), if_pos hfit]
  · rw [if_neg hfit, if_neg]
    rw [List.length_take]
    omega

/-- `server_fullname` does not overflow exactly when the name fits. -/
theorem serverFullname_of_fits {basedir name : List UInt8} (h : FullnameFits basedir name) :
    serverFullname basedir name = some (joinPath basedir name) := by
  unfold serverFullname joinPath
  by_cases hname : name = []
  · simp [hname]
  · obtain ⟨hbase, hfit⟩ := h.resolve_left hname
    have hpos := List.length_pos_of_ne_nil hname
    have htake : basedir.take PLATFORM_MAX_FNAME_LEN ≠ [] := by
      simp [hbase, PLATFORM_MAX_FNAME_LEN]
    unfold pathPrefix at hfit ⊢
    simp only [gt_iff_lt, hpos, if_true, hname, if_false,
      List.getLast?_eq_getLast_of_ne_nil htake, Option.bind_eq_bind, Option.bind_some,
      Option.some.injEq] at hfit ⊢
    by_cases hsep : (basedir.take PLATFORM_MAX_FNAME_LEN).getLast htake =
        PLATFORM_PATH_SEPARATOR
    · simp only [hsep, if_true, ne_eq, not_true, if_false] at hfit ⊢
      rw [strncat_eq htake, if_pos hfit]
    · simp only [hsep, if_false, ne_eq, not_false_eq_true, if_true] at hfit ⊢
      rw [List.length_append] at hfit
      rw [strncat_eq htake, if_pos (by omega), Option.bind_some,
        strncat_eq (by simp), if_pos (by rwa [List.length_append])]

theorem serverFullname_of_not_fits {basedir name : List UInt8}
    (h : ¬ FullnameFits basedir name) : serverFullname basedir name = none := by
  unfold FullnameFits at h
  rw [not_or, not_and] at h
  obtain ⟨hname, hfit⟩ := h
  have hpos := List.length_pos_of_ne_nil hname
  unfold serverFullname
  by_cases hbase : basedir = []
  · simp [hbase, hpos]
  · have hlong := hfit hbase
    have htake : basedir.take PLATFORM_MAX_FNAME_LEN ≠ [] := by
      simp [hbase, PLATFORM_MAX_FNAME_LEN]
    unfold pathPrefix at hlong
    simp only [gt_iff_lt, hpos, if_true, List.getLast?_eq_getLast_of_ne_nil htake,
      Option.bind_eq_bind, Option.bind_some, Option.some.injEq] at hlong ⊢
    by_cases hsep : (basedir.take PLATFORM_MAX_FNAME_LEN).getLast htake =
        PLATFORM_PATH_SEPARATOR
    · simp only [hsep, if_true, ne_eq, not_true, if_false] at hlong ⊢
      rw [strncat_eq htake, if_neg hlong]
    · simp only [hsep, if_false, ne_eq, not_false_eq_true, if_true] at hlong ⊢
      rw [strncat_eq htake]
      split
      · rw [Option.bind_some, strncat_eq (by simp), if_neg hlong]
      · rfl

/-! ## Calls and their results -/

/-- A call of a client function.  A `write` is given a pointer to the bytes it
writes, or `NULL` for none. -/
inductive Call where
  | open_ (pathname : CString) (flags mode : UInt32)
  | write (fd : UInt32) (buf : Option (List UInt8))
  | read (fd count : UInt32)
  | close (fd : UInt32)
  | lseek (fd offset whence : UInt32)
  | opendir (name : CString)
  | readdir (d : UInt32)
  | closedir (d : UInt32)

/-- What a call gives its caller: a number, a number with the bytes read, or
the name and size of an entry, `none` at the end of the directory. -/
inductive Ret where
  | num (v : UInt32)
  | bytes (v : UInt32) (data : List UInt8)
  | entry (e : Option (List UInt8 × UInt32))
  deriving DecidableEq, Repr

/-- The client function of a call over a link. -/
def rfscCall (o : OpenFlags) (link : Link) (buf : List UInt8) : Call → Option Ret
  | .open_ pathname flags mode => (rfscOpen link o buf pathname flags mode).map .num
  | .write fd src =>
      (rfscWrite link buf fd src (src.getD []).length.toUInt32).map .num
  | .read fd count => (rfscRead link buf fd count).map fun r => .bytes r.1 r.2
  | .close fd => (rfscClose link buf fd).map .num
  | .lseek fd offset whence => (rfscLseek link buf fd offset whence).map .num
  | .opendir name => (rfscOpendir link buf name).map .num
  | .readdir d => (rfscReaddir link buf d).map .entry
  | .closedir d => (rfscClosedir link buf d).map .num

/-- The fields of the request of a call. -/
def requestFields (o : OpenFlags) : Call → List Field
  | .open_ pathname flags mode =>
      [.op 1, .ptr pathname.bytes, .int32 (osOpenSysFlagsToRfsFlags o flags), .int32 mode]
  | .write fd src => [.op 2, .int32 fd, .ptr (src.getD [])]
  | .read fd count => [.op 3, .int32 fd, .int32 count]
  | .close fd => [.op 4, .int32 fd]
  | .lseek fd offset whence =>
      [.op 5, .int32 fd, .int32 offset, .int32 (osLseekSysWhenceToRfsWhence whence)]
  | .opendir name => [.op 6, .ptr name.bytes]
  | .readdir d => [.op 7, .int32 d]
  | .closedir d => [.op 8, .int32 d]

/-- The request fits the client's buffer. -/
def RequestFits (o : OpenFlags) (call : Call) : Prop :=
  packetSize (requestFields o call) ≤ clientBufferSize

/-- The result of the host function of a call.  An entry that cannot be opened
is not reported. -/
def osResult (o : OpenFlags) (os : OsIo) (basedir : List UInt8) : Call → Ret
  | .open_ pathname flags mode =>
      .num (os.open_ (joinPath basedir pathname.chars) (osOpenSysFlagsToRfsFlags o flags) mode)
  | .write fd src => .num (os.write fd (src.getD []))
  | .read fd count =>
      match os.read fd count with
      | none => .bytes minusOne []
      | some d => .bytes d.length.toUInt32 d
  | .close fd => .num (os.close fd)
  | .lseek fd offset whence =>
      .num (os.lseek fd offset (osLseekSysWhenceToRfsWhence whence))
  | .opendir name => .num (os.opendir (joinPath basedir name.chars))
  | .readdir d =>
      match os.readdir d with
      | none => .entry none
      | some name =>
          let fd := os.open_ (joinPath basedir name.chars) RFS_OPEN_FLAG_RDONLY 0
          if fd = minusOne then .entry none
          else .entry (some (name.chars, os.lseek fd 0 RFS_LSEEK_END))
  | .closedir d => .num (os.closedir d)

/-- When the result of the host function comes back to the client. -/
def Carried (os : OsIo) (basedir : List UInt8) : Call → Prop
  | .open_ pathname _ _ => FullnameFits basedir pathname.chars
  | .write _ _ => True
  | .read fd count => ∃ d, os.read fd count = some d ∧ 23 + d.length ≤ clientBufferSize
  | .close _ => True
  | .lseek _ _ _ => True
  | .opendir name => FullnameFits basedir name.chars
  | .readdir d => ∀ name, os.readdir d = some name →
      FullnameFits basedir name.chars ∧
        os.open_ (joinPath basedir name.chars) RFS_OPEN_FLAG_RDONLY 0 ≠ 0 ∧
        os.open_ (joinPath basedir name.chars) RFS_OPEN_FLAG_RDONLY 0 ≠ minusOne
  | .closedir d => os.closedir d = d

/-! ## The server's handlers on request packets -/

/-- A name is at most as long as `os_readdir` leaves it. -/
def ShortName (name : Option CString) : Prop :=
  ∀ s, name = some s → s.chars.length ≤ RFS_MAX_FNAME_SIZE

theorem ShortName.bytes_le {name : Option CString} (h : ShortName name) :
    ((name.map CString.bytes).getD []).length ≤ 32 := by
  cases name with
  | none => exact Nat.zero_le _
  | some s =>
      have hs := h s rfl
      simp only [Option.map_some, Option.getD_some, s.bytes_length, CString.size]
      exact Nat.succ_le_succ hs

/-- A response to `readdir` is a packet. -/
theorem ShortName.fields {name : Option CString} (h : ShortName name) (size ftime : UInt32) :
    fields? ['r', 'p', 'l', 'l'] [.int RFS_OP_READDIR, .ptr (name.map CString.bytes),
      .int ((name.map CString.size).getD 0).toUInt32, .int size, .int ftime] =
      some [.response 7, .ptr ((name.map CString.bytes).getD []), .int32 size,
        .int32 ftime] := by
  have hle := h.bytes_le
  have hsize : (name.map CString.size).getD 0 = ((name.map CString.bytes).getD []).length := by
    cases name with
    | none => rfl
    | some s => exact s.bytes_length.symm
  have hn : ((name.map CString.size).getD 0).toUInt32.toNat =
      ((name.map CString.bytes).getD []).length := by
    rw [hsize]
    exact Nat.mod_eq_of_lt (by omega)
  simp [fields?, field?, hn, RFS_OP_READDIR]

theorem readdirPacket_size (d : List UInt8) (size ftime : UInt32) :
    packetSize [.response 7, .ptr d, .int32 size, .int32 ftime] = 33 + d.length := by
  simp [packetSize, fieldsBytes, Field.bytes]
  omega

theorem shortName_of_entry {os : OsIo} {basedir : List UInt8} {d : UInt32}
    {name : Option CString} {fsize : UInt32}
    (h : serverReaddirEntry os basedir d = some (name, fsize)) : ShortName name := by
  intro s hs
  subst hs
  unfold serverReaddirEntry at h
  cases hos : os.readdir d with
  | none => simp [hos] at h
  | some s' =>
      simp only [hos, Option.bind_eq_bind, Option.bind_eq_some_iff] at h
      obtain ⟨fullname, -, h⟩ := h
      split at h
      · simp only [Option.pure_def, Option.some.injEq, Prod.mk.injEq] at h
        exact h.1 ▸ os.readdir_le d s' hos
      · simp at h

section Execute

variable (os : OsIo) (basedir rest : List UInt8)

theorem le_packet_length (fs : List Field) (n : Nat) (h : n ≤ packetSize fs) :
    n ≤ (packetBytes fs ++ rest).length := by
  rw [List.length_append, packetBytes_length]
  omega

theorem openReadRequest_packet (s : CString) (flags mode : UInt32)
    (hs : s.bytes.length < 2 ^ 32) :
    ∃ off, remotefsOpenReadRequest
        (packetBytes [.op 1, .ptr s.bytes, .int32 flags, .int32 mode] ++ rest) =
          some ((off, flags, mode), ELUARPC_OK) ∧
      requestName (packetBytes [.op 1, .ptr s.bytes, .int32 flags, .int32 mode] ++ rest) off =
        some s.chars := by
  have hfs : DenotesAll ['o', 'p', 'i', 'i']
      [.op 1, .ptr s.bytes, .int32 flags, .int32 mode] :=
    .cons (.op 1) (.cons (.ptr _ hs) (.cons (.int32 'i' _ (.inl rfl))
      (.cons (.int32 'i' _ (.inl rfl)) .nil)))
  obtain ⟨vs, hread, hvs⟩ := genRead_packet hfs [RFS_OP_OPEN] rfl rest
  obtain ⟨off, _, _, rfl, hoff, -, htail⟩ := hvs.ptr
  obtain ⟨_, rfl, hlast⟩ := htail.u32
  obtain ⟨_, rfl, rfl⟩ := hlast.u32
  refine ⟨off, ?_, requestName_of_pointsTo hoff⟩
  rw [remotefsOpenReadRequest, hread]
  rfl

theorem execute_open (s : CString) (flags mode : UInt32) (hs : s.bytes.length < 2 ^ 32) :
    serverExecuteRequest os basedir
        (packetBytes [.op 1, .ptr s.bytes, .int32 flags, .int32 mode] ++ rest) =
      (serverFullname basedir s.chars).bind fun fullname =>
        some (SERVER_OK, packetBytes [.response 1, .int32 (os.open_ fullname flags mode)] ++
          (packetBytes [.op 1, .ptr s.bytes, .int32 flags, .int32 mode] ++ rest).drop 22) := by
  obtain ⟨off, hread, hname⟩ := openReadRequest_packet rest s flags mode hs
  have hp : 22 ≤ (packetBytes [.op 1, .ptr s.bytes, .int32 flags, .int32 mode] ++
      rest).length := by
    refine le_packet_length rest _ _ ?_
    simp [packetSize, fieldsBytes, Field.bytes]
    omega
  rw [serverExecuteRequest_packet rest (by decide) rfl, serverOpen, hread]
  simp only [Option.bind_eq_bind, Option.bind_some, respond, hname]
  cases serverFullname basedir s.chars with
  | none => rfl
  | some fullname =>
      simp only [Option.bind_some, remotefsOpenWriteResponse]
      rw [writeResult_eq (.inl rfl) rfl _ hp]
      rfl

theorem execute_write (fd : UInt32) (d : List UInt8) (hd : d.length < 2 ^ 32) :
    serverExecuteRequest os basedir (packetBytes [.op 2, .int32 fd, .ptr d] ++ rest) =
      some (SERVER_OK, packetBytes [.response 2, .int32 (os.write fd d)] ++
        (packetBytes [.op 2, .int32 fd, .ptr d] ++ rest).drop 22) := by
  have hfs : DenotesAll ['o', 'i', 'p'] [.op 2, .int32 fd, .ptr d] :=
    .cons (.op 2) (.cons (.int32 'i' _ (.inl rfl)) (.cons (.ptr _ hd) .nil))
  obtain ⟨vs, hread, hvs⟩ := genRead_packet hfs [RFS_OP_WRITE] rfl rest
  have hp : 22 ≤ (packetBytes [.op 2, .int32 fd, .ptr d] ++ rest).length := by
    refine le_packet_length rest _ _ ?_
    simp [packetSize, fieldsBytes, Field.bytes]
    omega
  obtain ⟨_, rfl, htail⟩ := hvs.u32
  obtain ⟨off, n, _, rfl, hoff, hn, rfl⟩ := htail.ptr
  have hdata : ((off.map fun o => slice (packetBytes [.op 2, .int32 fd, .ptr d] ++ rest) o
      n.toNat).getD []) = d := by
    rw [hn]
    exact hoff.getD_slice
  rw [serverExecuteRequest_packet rest (by decide) rfl, serverWrite,
    remotefsWriteReadRequest, hread]
  simp only [Option.bind_eq_bind, Option.bind_some, Option.pure_def, respond, hdata,
    remotefsWriteWriteResponse]
  rw [writeResult_eq (.inr (.inl rfl)) rfl _ hp]
  rfl

/-- A `read` request reaches the host. -/
theorem serverRead_packet (fd count : UInt32) :
    serverExecuteRequest os basedir (packetBytes [.op 3, .int32 fd, .int32 count] ++ rest) =
      ((serverReadData os (packetBytes [.op 3, .int32 fd, .int32 count] ++ rest) fd count).bind
        fun r => remotefsReadWriteResponse r.1 r.2).map (SERVER_OK, ·) := by
  have hfs : DenotesAll ['o', 'i', 'l'] [.op 3, .int32 fd, .int32 count] :=
    .cons (.op 3) (.cons (.int32 'i' _ (.inl rfl)) (.cons (.int32 'l' _ (.inr (.inl rfl))) .nil))
  obtain ⟨vs, hread, hvs⟩ := genRead_packet hfs [RFS_OP_READ] rfl rest
  obtain ⟨_, rfl, htail⟩ := hvs.u32
  obtain ⟨_, rfl, rfl⟩ := htail.u32
  rw [serverExecuteRequest_packet rest (by decide) rfl, serverRead,
    remotefsReadReadRequest, hread]
  rfl

theorem readRequest_length (fd count : UInt32) :
    (packetBytes [.op 3, .int32 fd, .int32 count] ++ rest).length = 28 + rest.length := by
  rw [List.length_append, packetBytes_length]
  rfl

/-- The bytes read are already where the response has its data. -/
theorem execute_read {fd count : UInt32} {d : List UInt8} (hd : os.read fd count = some d)
    (hfit : 23 + d.length ≤ 28 + rest.length) :
    ∃ rest', serverExecuteRequest os basedir
        (packetBytes [.op 3, .int32 fd, .int32 count] ++ rest) =
      some (SERVER_OK, packetBytes [.response 3, .ptr d] ++ rest') := by
  have hlen := readRequest_length rest fd count
  have h32 : d.length < 2 ^ 32 := by
    have hle := os.read_le fd count d hd
    have hlt := count.toNat_lt
    omega
  have hroom : 17 + d.length ≤
      (packetBytes [.op 3, .int32 fd, .int32 count] ++ rest).length := by omega
  have hat : At (splice (packetBytes [.op 3, .int32 fd, .int32 count] ++ rest) 17 d) 17 d :=
    at_splice (by omega)
  rw [serverRead_packet os basedir rest]
  simp only [serverReadData, hd, ELUARPC_READ_BUF_OFFSET, storeAll_eq_splice hroom,
    Option.map_some, Option.bind_some, remotefsReadWriteResponse]
  rw [genWrite_rp_of_at hat h32 _ (by rw [splice_length hroom]; omega)]
  exact ⟨_, rfl⟩

/-- A failed `read`, whose length is 2^32 - 1, and a `read` of more bytes than
the server's buffer has room for store outside the buffer. -/
theorem execute_read_eq_none {fd count : UInt32} (hrest : rest.length ≤ 65535)
    (h : ∀ d, os.read fd count = some d → 28 + rest.length < 23 + d.length) :
    serverExecuteRequest os basedir (packetBytes [.op 3, .int32 fd, .int32 count] ++ rest) =
      none := by
  have hlen := readRequest_length rest fd count
  rw [serverRead_packet os basedir rest]
  cases hos : os.read fd count with
  | none =>
      have hminus : minusOne.toNat = 4294967295 := rfl
      simp only [serverReadData, hos, Option.bind_some, remotefsReadWriteResponse]
      rw [genWrite_rp_eq_none (by omega)]
      rfl
  | some d =>
      have hlong := h d hos
      have h32 : d.length < 2 ^ 32 := by
        have hle := os.read_le fd count d hos
        have hlt := count.toNat_lt
        omega
      have hn : d.length.toUInt32.toNat = d.length := Nat.mod_eq_of_lt h32
      by_cases hfit : 17 + d.length ≤ 28 + rest.length
      · have hroom : 17 + d.length ≤
            (packetBytes [.op 3, .int32 fd, .int32 count] ++ rest).length := by omega
        simp only [serverReadData, hos, ELUARPC_READ_BUF_OFFSET, storeAll_eq_splice hroom,
          Option.map_some, Option.bind_some, remotefsReadWriteResponse]
        rw [genWrite_rp_eq_none (by rw [splice_length hroom, hn]; omega)]
        rfl
      · have hne : d ≠ [] := by
          intro hnil
          rw [hnil, List.length_nil] at hfit
          omega
        have hroom : (packetBytes [.op 3, .int32 fd, .int32 count] ++ rest).length <
            17 + d.length := by omega
        simp only [serverReadData, hos, ELUARPC_READ_BUF_OFFSET, storeAll_eq_none hroom hne]
        rfl

theorem execute_close (fd : UInt32) :
    serverExecuteRequest os basedir (packetBytes [.op 4, .int32 fd] ++ rest) =
      some (SERVER_OK, packetBytes [.response 4, .int32 (os.close fd)] ++
        (packetBytes [.op 4, .int32 fd] ++ rest).drop 22) := by
  have hp := le_packet_length rest [.op 4, .int32 fd] 22 (Nat.le_succ 22)
  rw [serverExecuteRequest_packet rest (by decide) rfl, serverClose, remotefsCloseReadRequest,
    readArg_packet (.inl rfl) RFS_OP_CLOSE 4 rfl]
  simp only [Option.bind_eq_bind, Option.bind_some, respond, remotefsCloseWriteResponse]
  rw [writeResult_eq (.inl rfl) rfl _ hp]
  rfl

theorem execute_lseek (fd offset whence : UInt32) :
    serverExecuteRequest os basedir
        (packetBytes [.op 5, .int32 fd, .int32 offset, .int32 whence] ++ rest) =
      some (SERVER_OK, packetBytes [.response 5, .int32 (os.lseek fd offset whence)] ++
        (packetBytes [.op 5, .int32 fd, .int32 offset, .int32 whence] ++ rest).drop 22) := by
  have hfs : DenotesAll ['o', 'i', 'L', 'i'] [.op 5, .int32 fd, .int32 offset, .int32 whence] :=
    .cons (.op 5) (.cons (.int32 'i' _ (.inl rfl)) (.cons (.int32 'L' _ (.inr (.inr rfl)))
      (.cons (.int32 'i' _ (.inl rfl)) .nil)))
  obtain ⟨vs, hread, hvs⟩ := genRead_packet hfs [RFS_OP_LSEEK] rfl rest
  have hp := le_packet_length rest [.op 5, .int32 fd, .int32 offset, .int32 whence] 22
    (show 22 ≤ 33 by decide)
  obtain ⟨_, rfl, htail⟩ := hvs.u32
  obtain ⟨_, rfl, hlast⟩ := htail.u32
  obtain ⟨_, rfl, rfl⟩ := hlast.u32
  rw [serverExecuteRequest_packet rest (by decide) rfl, serverLseek,
    remotefsLseekReadRequest, hread]
  simp only [Option.bind_eq_bind, Option.bind_some, Option.pure_def, respond,
    remotefsLseekWriteResponse]
  rw [writeResult_eq (.inr (.inr rfl)) rfl _ hp]
  rfl

theorem execute_opendir (s : CString) (hs : s.bytes.length < 2 ^ 32) :
    serverExecuteRequest os basedir (packetBytes [.op 6, .ptr s.bytes] ++ rest) =
      (serverFullname basedir s.chars).bind fun fullname =>
        some (SERVER_OK, packetBytes [.response 6, .int32 (os.opendir fullname)] ++
          (packetBytes [.op 6, .ptr s.bytes] ++ rest).drop 22) := by
  have hfs : DenotesAll ['o', 'p'] [.op 6, .ptr s.bytes] :=
    .cons (.op 6) (.cons (.ptr _ hs) .nil)
  obtain ⟨vs, hread, hvs⟩ := genRead_packet hfs [RFS_OP_OPENDIR] rfl rest
  have hp : 22 ≤ (packetBytes [.op 6, .ptr s.bytes] ++ rest).length := by
    refine le_packet_length rest _ _ ?_
    simp [packetSize, fieldsBytes, Field.bytes]
    omega
  obtain ⟨off, _, _, rfl, hoff, -, rfl⟩ := hvs.ptr
  have hname := requestName_of_pointsTo hoff
  rw [serverExecuteRequest_packet rest (by decide) rfl, serverOpendir,
    remotefsOpendirReadRequest, hread]
  simp only [Option.bind_eq_bind, Option.bind_some, Option.pure_def, respond, hname]
  cases serverFullname basedir s.chars with
  | none => rfl
  | some fullname =>
      simp only [Option.bind_some, remotefsOpendirWriteResponse]
      rw [writeResult_eq (.inr (.inl rfl)) rfl _ hp]
      rfl

/-- The response to a `readdir` request. -/
theorem execute_readdir (d : UInt32) {name : Option CString} {fsize : UInt32}
    (hentry : serverReaddirEntry os basedir d = some (name, fsize))
    (hlen : ShortName name) (hrest : 64 ≤ rest.length) :
    ∃ rest', serverExecuteRequest os basedir (packetBytes [.op 7, .int32 d] ++ rest) =
      some (SERVER_OK, packetBytes [.response 7, .ptr ((name.map CString.bytes).getD []),
        .int32 fsize, .int32 0] ++ rest') := by
  have hle := hlen.bytes_le
  have hroom : packetSize [.response 7, .ptr ((name.map CString.bytes).getD []),
      .int32 fsize, .int32 0] ≤ (packetBytes [.op 7, .int32 d] ++ rest).length := by
    rw [readdirPacket_size, List.length_append, packetBytes_length]
    have hrequest : 16 ≤ packetSize [.op 7, .int32 d] := Nat.le_add_right _ _
    omega
  have hwrite := eluarpcGenWrite_eq (hlen.fields fsize 0) hroom
  rw [serverExecuteRequest_packet rest (by decide) rfl, serverReaddir,
    remotefsReaddirReadRequest, readArg_packet (.inr (.inl rfl)) RFS_OP_READDIR 7 rfl]
  simp only [Option.bind_eq_bind, Option.bind_some, respond, hentry,
    remotefsReaddirWriteResponse, hwrite]
  exact ⟨_, rfl⟩

theorem execute_readdir_eq_none {d : UInt32}
    (hentry : serverReaddirEntry os basedir d = none) :
    serverExecuteRequest os basedir (packetBytes [.op 7, .int32 d] ++ rest) = none := by
  rw [serverExecuteRequest_packet rest (by decide) rfl, serverReaddir,
    remotefsReaddirReadRequest, readArg_packet (.inr (.inl rfl)) RFS_OP_READDIR 7 rfl]
  simp only [Option.bind_eq_bind, Option.bind_some, respond, hentry, Option.bind_none]
  rfl

theorem execute_closedir (d : UInt32) :
    serverExecuteRequest os basedir (packetBytes [.op 8, .int32 d] ++ rest) =
      some (SERVER_OK, packetBytes [.response 8, .int32 d] ++
        (packetBytes [.op 8, .int32 d] ++ rest).drop 22) := by
  have hp := le_packet_length rest [.op 8, .int32 d] 22 (Nat.le_succ 22)
  rw [serverExecuteRequest_packet rest (by decide) rfl, serverClosedir,
    remotefsClosedirReadRequest, readArg_packet (.inr (.inl rfl)) RFS_OP_CLOSEDIR 8 rfl]
  simp only [Option.bind_eq_bind, Option.bind_some, respond, remotefsClosedirWriteResponse]
  rw [writeResult_eq (.inl rfl) rfl _ hp]
  rfl

end Execute

/-! ## The client's decoders on response packets -/

theorem copyRead_packet {d : List UInt8} (hd : d.length < 2 ^ 32) (rest : List UInt8) :
    copyRead (packetBytes [.response 3, .ptr d] ++ rest) =
      some ((d.length.toUInt32, d), ELUARPC_OK) := by
  have hfs : DenotesAll ['r', 'p'] [.response 3, .ptr d] :=
    .cons (.response 3) (.cons (.ptr _ hd) .nil)
  obtain ⟨vs, hread, hvs⟩ := genRead_packet hfs [RFS_OP_READ] rfl rest
  obtain ⟨off, n, _, rfl, hoff, hn, rfl⟩ := hvs.ptr
  have hdata : ((off.map fun o => slice (packetBytes [.response 3, .ptr d] ++ rest) o
      n.toNat).getD []) = d := by
    rw [hn]
    exact hoff.getD_slice
  have hlen : d.length.toUInt32 = n := by
    apply UInt32.toNat_inj.mp
    rw [hn]
    exact Nat.mod_eq_of_lt hd
  rw [copyRead, remotefsReadReadResponse, hread, hlen]
  simp only [Option.bind_eq_bind, Option.bind_some, Option.pure_def, hdata]

theorem readEntry_packet {name : Option CString} (hlen : ShortName name) (fsize : UInt32)
    (rest : List UInt8) :
    readEntry (packetBytes [.response 7, .ptr ((name.map CString.bytes).getD []),
        .int32 fsize, .int32 0] ++ rest) =
      some (name.map fun s => (s.chars, fsize), ELUARPC_OK) := by
  have hd : ((name.map CString.bytes).getD []).length < 2 ^ 32 := by
    have hle := hlen.bytes_le
    omega
  have hfs : DenotesAll ['r', 'p', 'l', 'l'] [.response 7,
      .ptr ((name.map CString.bytes).getD []), .int32 fsize, .int32 0] :=
    .cons (.response 7) (.cons (.ptr _ hd) (.cons (.int32 'l' _ (.inr (.inl rfl)))
      (.cons (.int32 'l' _ (.inr (.inl rfl))) .nil)))
  obtain ⟨vs, hread, hvs⟩ := genRead_packet hfs [RFS_OP_READDIR] rfl rest
  obtain ⟨off, _, _, rfl, hoff, -, htail⟩ := hvs.ptr
  obtain ⟨_, rfl, hlast⟩ := htail.u32
  obtain ⟨_, rfl, rfl⟩ := hlast.u32
  rw [readEntry, remotefsReaddirReadResponse, hread]
  cases name with
  | none =>
      cases off with
      | none => rfl
      | some o => exact absurd rfl hoff.1
  | some s =>
      cases off with
      | none => exact absurd hoff s.bytes_ne_nil
      | some o =>
          simp only [Option.bind_eq_bind, Option.bind_some, Option.pure_def,
            cstringAt_of_at hoff.2.1]
          rfl

/-! ## Client, link and server together -/

section Together

variable {o : OpenFlags} {os : OsIo} {basedir client mem : List UInt8} {fs gs : List Field}

theorem exchange_served {α : Type} {failed r : α}
    {decode : List UInt8 → Option (α × ErrFlag)} (hclient : client.length = clientBufferSize)
    (hmem : mem.length = serverBufferSize) (hfit : packetSize fs ≤ clientBufferSize)
    (hexec : ∃ rest', serverExecuteRequest os basedir
        (packetBytes fs ++ mem.drop (packetSize fs)) =
      some (SERVER_OK, packetBytes gs ++ rest'))
    (hgs : packetSize gs ≤ 65535)
    (hdecode : ∀ rest, decode (packetBytes gs ++ rest) = some (r, ELUARPC_OK)) :
    exchange (serveRequest os basedir mem) (some (packetBytes fs ++ client.drop (packetSize fs)))
        failed decode =
      if packetSize gs ≤ clientBufferSize then some r else none := by
  obtain ⟨rest', hexec⟩ := hexec
  have hc : clientBufferSize = 512 := rfl
  have hm : serverBufferSize = 4125 := rfl
  have hlink := serveRequest_of_execute (by omega) (by omega) hgs hexec
  rw [exchange_packet (by omega) (by omega) hlink hgs hdecode, hclient]

theorem exchange_unserved {α : Type} {failed : α}
    {decode : List UInt8 → Option (α × ErrFlag)} (hclient : client.length = clientBufferSize)
    (hmem : mem.length = serverBufferSize) (hfit : packetSize fs ≤ clientBufferSize)
    (hexec : serverExecuteRequest os basedir (packetBytes fs ++ mem.drop (packetSize fs)) =
      none) :
    exchange (serveRequest os basedir mem) (some (packetBytes fs ++ client.drop (packetSize fs)))
      failed decode = none := by
  have hc : clientBufferSize = 512 := rfl
  have hm : serverBufferSize = 4125 := rfl
  have hlink : serveRequest os basedir mem (packetBytes fs) = none := by
    rw [serveRequest_packet (by omega) (by omega), hexec]
    rfl
  exact exchange_eq_none (by omega) (by omega) hlink

/-- The exchange of an operation whose response carries one number. -/
theorem exchange_result {c : Char} (hc : c = 'i' ∨ c = 'l' ∨ c = 'L') {op : UInt32}
    (id : UInt8) (hid : op.toUInt8 = id) {failed v : UInt32}
    (hclient : client.length = clientBufferSize) (hmem : mem.length = serverBufferSize)
    (hfit : packetSize fs ≤ clientBufferSize)
    (hexec : ∃ rest', serverExecuteRequest os basedir
        (packetBytes fs ++ mem.drop (packetSize fs)) =
      some (SERVER_OK, packetBytes [.response id, .int32 v] ++ rest')) :
    exchange (serveRequest os basedir mem) (some (packetBytes fs ++ client.drop (packetSize fs)))
      failed (readResult c op) = some v := by
  rw [exchange_served hclient hmem hfit hexec (show 22 ≤ 65535 by decide)
    (fun rest => readResult_packet hc op id hid v)]
  exact if_pos (show 22 ≤ 512 by decide)

/-- What the client, the link and the server return together for a call. -/
def rfsRun (o : OpenFlags) (os : OsIo) (basedir client mem : List UInt8) (call : Call) :
    Option Ret :=
  rfscCall o (serveRequest os basedir mem) client call

section Calls

variable (hclient : client.length = clientBufferSize) (hmem : mem.length = serverBufferSize)

include hclient hmem

theorem rfsRun_open {s : CString} {flags mode : UInt32}
    (hfit : RequestFits o (.open_ s flags mode)) :
    rfsRun o os basedir client mem (.open_ s flags mode) =
      (serverFullname basedir s.chars).map fun fullname =>
        .num (os.open_ fullname (osOpenSysFlagsToRfsFlags o flags) mode) := by
  have hs : s.bytes.length < 2 ^ 32 := by
    simp [RequestFits, requestFields, packetSize, fieldsBytes, Field.bytes,
      clientBufferSize, RFS_BUFFER_SIZE] at hfit
    omega
  have hn := CString.toNat_size hs
  have hfields : fields? ['o', 'p', 'i', 'i'] [.int RFS_OP_OPEN, .ptr (some s.bytes),
      .int s.size.toUInt32, .int (osOpenSysFlagsToRfsFlags o flags), .int mode] =
      some (requestFields o (.open_ s flags mode)) := by
    simp [fields?, field?, hn, RFS_OP_OPEN, requestFields]
  have hreq := eluarpcGenWrite_eq hfields (by rw [hclient]; exact hfit)
  have hexec := execute_open os basedir
    (mem.drop (packetSize (requestFields o (.open_ s flags mode)))) s
    (osOpenSysFlagsToRfsFlags o flags) mode hs
  rw [rfsRun, rfscCall, rfscOpen, remotefsOpenWriteRequest, hreq]
  cases hfull : serverFullname basedir s.chars with
  | none =>
      rw [hfull, Option.bind_none] at hexec
      rw [exchange_unserved hclient hmem hfit hexec]
      rfl
  | some fullname =>
      rw [hfull, Option.bind_some] at hexec
      rw [remotefsOpenReadResponse, exchange_result (.inl rfl) 1 rfl hclient hmem hfit ⟨_, hexec⟩]
      rfl

theorem rfsRun_write {fd : UInt32} {src : Option (List UInt8)}
    (hfit : RequestFits o (.write fd src)) :
    rfsRun o os basedir client mem (.write fd src) =
      some (.num (os.write fd (src.getD []))) := by
  have hd : (src.getD []).length < 2 ^ 32 := by
    simp [RequestFits, requestFields, packetSize, fieldsBytes, Field.bytes,
      clientBufferSize, RFS_BUFFER_SIZE] at hfit
    omega
  have hn : (src.getD []).length.toUInt32.toNat = (src.getD []).length :=
    Nat.mod_eq_of_lt hd
  have hfields : fields? ['o', 'i', 'p'] [.int RFS_OP_WRITE, .int fd, .ptr src,
      .int (src.getD []).length.toUInt32] = some (requestFields o (.write fd src)) := by
    simp [fields?, field?, hn, RFS_OP_WRITE, requestFields]
  have hreq := eluarpcGenWrite_eq hfields (by rw [hclient]; exact hfit)
  have hexec := execute_write os basedir
    (mem.drop (packetSize (requestFields o (.write fd src)))) fd (src.getD []) hd
  rw [rfsRun, rfscCall, rfscWrite, remotefsWriteWriteRequest, hreq, remotefsWriteReadResponse,
    exchange_result (.inr (.inl rfl)) 2 rfl hclient hmem hfit ⟨_, hexec⟩]
  rfl

theorem rfsRun_close {fd : UInt32} :
    rfsRun o os basedir client mem (.close fd) = some (.num (os.close fd)) := by
  have hfit : packetSize [.op 4, .int32 fd] ≤ clientBufferSize := show 23 ≤ 512 by decide
  have hreq := writeArg_eq (.inl rfl) (show RFS_OP_CLOSE.toUInt8 = 4 from rfl) fd
    (show 23 ≤ client.length by rw [hclient]; decide)
  have hexec := execute_close os basedir (mem.drop (packetSize [.op 4, .int32 fd])) fd
  rw [rfsRun, rfscCall, rfscClose, remotefsCloseWriteRequest, hreq, remotefsCloseReadResponse,
    exchange_result (.inl rfl) 4 rfl hclient hmem hfit ⟨_, hexec⟩]
  rfl

theorem rfsRun_lseek {fd offset whence : UInt32} :
    rfsRun o os basedir client mem (.lseek fd offset whence) =
      some (.num (os.lseek fd offset (osLseekSysWhenceToRfsWhence whence))) := by
  have hfit : packetSize (requestFields o (.lseek fd offset whence)) ≤ clientBufferSize :=
    show 33 ≤ 512 by decide
  have hfields : fields? ['o', 'i', 'L', 'i'] [.int RFS_OP_LSEEK, .int fd, .int offset,
      .int (osLseekSysWhenceToRfsWhence whence)] =
      some (requestFields o (.lseek fd offset whence)) := rfl
  have hreq := eluarpcGenWrite_eq hfields (by rw [hclient]; exact hfit)
  have hexec := execute_lseek os basedir (mem.drop 33) fd offset
    (osLseekSysWhenceToRfsWhence whence)
  rw [rfsRun, rfscCall, rfscLseek, remotefsLseekWriteRequest, hreq, remotefsLseekReadResponse,
    exchange_result (.inr (.inr rfl)) 5 rfl hclient hmem hfit ⟨_, hexec⟩]
  rfl

theorem rfsRun_opendir {s : CString} (hfit : RequestFits o (.opendir s)) :
    rfsRun o os basedir client mem (.opendir s) =
      (serverFullname basedir s.chars).map fun fullname => .num (os.opendir fullname) := by
  have hs : s.bytes.length < 2 ^ 32 := by
    simp [RequestFits, requestFields, packetSize, fieldsBytes, Field.bytes,
      clientBufferSize, RFS_BUFFER_SIZE] at hfit
    omega
  have hn := CString.toNat_size hs
  have hfields : fields? ['o', 'p'] [.int RFS_OP_OPENDIR, .ptr (some s.bytes),
      .int s.size.toUInt32] = some (requestFields o (.opendir s)) := by
    simp [fields?, field?, hn, RFS_OP_OPENDIR, requestFields]
  have hreq := eluarpcGenWrite_eq hfields (by rw [hclient]; exact hfit)
  have hexec := execute_opendir os basedir
    (mem.drop (packetSize (requestFields o (.opendir s)))) s hs
  rw [rfsRun, rfscCall, rfscOpendir, remotefsOpendirWriteRequest, hreq]
  cases hfull : serverFullname basedir s.chars with
  | none =>
      rw [hfull, Option.bind_none] at hexec
      rw [exchange_unserved hclient hmem hfit hexec]
      rfl
  | some fullname =>
      rw [hfull, Option.bind_some] at hexec
      rw [remotefsOpendirReadResponse,
        exchange_result (.inr (.inl rfl)) 6 rfl hclient hmem hfit ⟨_, hexec⟩]
      rfl

theorem rfsRun_closedir {d : UInt32} :
    rfsRun o os basedir client mem (.closedir d) = some (.num d) := by
  have hfit : packetSize [.op 8, .int32 d] ≤ clientBufferSize := show 23 ≤ 512 by decide
  have hreq := writeArg_eq (.inr (.inl rfl)) (show RFS_OP_CLOSEDIR.toUInt8 = 8 from rfl) d
    (show 23 ≤ client.length by rw [hclient]; decide)
  have hexec := execute_closedir os basedir (mem.drop (packetSize [.op 8, .int32 d])) d
  rw [rfsRun, rfscCall, rfscClosedir, remotefsClosedirWriteRequest, hreq,
    remotefsClosedirReadResponse, exchange_result (.inl rfl) 8 rfl hclient hmem hfit ⟨_, hexec⟩]
  rfl

/-- A `read` comes back when it has not failed and its response fits the
client's buffer. -/
theorem rfsRun_read {fd count : UInt32} :
    rfsRun o os basedir client mem (.read fd count) =
      match os.read fd count with
      | none => none
      | some d =>
          if 23 + d.length ≤ clientBufferSize then some (.bytes d.length.toUInt32 d) else none := by
  have hfit : packetSize (requestFields o (.read fd count)) ≤ clientBufferSize :=
    show 28 ≤ 512 by decide
  have hfields : fields? ['o', 'i', 'l'] [.int RFS_OP_READ, .int fd, .int count] =
      some (requestFields o (.read fd count)) := rfl
  have hreq := eluarpcGenWrite_eq hfields (by rw [hclient]; exact hfit)
  have hm : serverBufferSize = 4125 := rfl
  have hc : clientBufferSize = 512 := rfl
  have hdrop : (mem.drop (packetSize (requestFields o (.read fd count)))).length = 4097 := by
    rw [List.length_drop]
    exact (congrArg (· - 28) hmem)
  rw [rfsRun, rfscCall, rfscRead, remotefsReadWriteRequest, hreq]
  cases hos : os.read fd count with
  | none =>
      have hnone : ∀ d, os.read fd count = some d → 28 + 4097 < 23 + d.length := by
        intro d hd
        rw [hos] at hd
        cases hd
      rw [← hdrop] at hnone
      have hexec := execute_read_eq_none os basedir _ (by omega) hnone
      rw [exchange_unserved hclient hmem hfit hexec]
      rfl
  | some d =>
      have hsize : packetSize [.response 3, .ptr d] = 23 + d.length := by
        simp [packetSize, fieldsBytes, Field.bytes]
        omega
      have h32 : d.length < 2 ^ 32 := by
        have hle := os.read_le fd count d hos
        have hlt := count.toNat_lt
        omega
      by_cases hroom : 23 + d.length ≤ 28 + 4097
      · have hroom' := hroom
        rw [← hdrop] at hroom'
        have hexec := execute_read os basedir _ hos hroom'
        rw [exchange_served hclient hmem hfit hexec (by omega) (copyRead_packet h32), hsize]
        by_cases hback : 23 + d.length ≤ clientBufferSize
        · simp only [if_pos hback, Option.map_some]
        · simp only [if_neg hback, Option.map_none]
      · have hlong : ∀ d', os.read fd count = some d' → 28 + 4097 < 23 + d'.length := by
          intro d' hd'
          rw [hos, Option.some.injEq] at hd'
          subst hd'
          omega
        rw [← hdrop] at hlong
        have hexec := execute_read_eq_none os basedir _ (by omega) hlong
        rw [exchange_unserved hclient hmem hfit hexec]
        simp only [if_neg (show ¬ 23 + d.length ≤ clientBufferSize by omega)]
        rfl

/-- A `readdir` comes back as the entry that the server has made of it. -/
theorem rfsRun_readdir {d : UInt32} :
    rfsRun o os basedir client mem (.readdir d) =
      (serverReaddirEntry os basedir d).map fun r =>
        .entry (r.1.map fun s => (s.chars, r.2)) := by
  have hfit : packetSize [.op 7, .int32 d] ≤ clientBufferSize := show 23 ≤ 512 by decide
  have hreq := writeArg_eq (.inr (.inl rfl)) (show RFS_OP_READDIR.toUInt8 = 7 from rfl) d
    (show 23 ≤ client.length by rw [hclient]; decide)
  have hdrop : (mem.drop (packetSize [.op 7, .int32 d])).length = 4102 := by
    rw [List.length_drop]
    exact (congrArg (· - 23) hmem)
  rw [rfsRun, rfscCall, rfscReaddir, remotefsReaddirWriteRequest, hreq]
  cases hentry : serverReaddirEntry os basedir d with
  | none =>
      have hexec := execute_readdir_eq_none os basedir
        (mem.drop (packetSize [.op 7, .int32 d])) hentry
      rw [exchange_unserved hclient hmem hfit hexec]
      rfl
  | some r =>
      obtain ⟨name, fsize⟩ := r
      have hlen := shortName_of_entry hentry
      have hexec := execute_readdir os basedir
        (mem.drop (packetSize [.op 7, .int32 d])) d hentry hlen (by omega)
      have hsize : packetSize [.response 7, .ptr ((name.map CString.bytes).getD []),
          .int32 fsize, .int32 0] ≤ clientBufferSize := by
        have hle := hlen.bytes_le
        have hc : clientBufferSize = 512 := rfl
        simp [packetSize, fieldsBytes, Field.bytes]
        omega
      rw [exchange_served hclient hmem hfit hexec
        (Nat.le_trans hsize (show 512 ≤ 65535 by decide)) (readEntry_packet hlen fsize),
        if_pos hsize]
      rfl

end Calls

end Together

/-- **When the remote file system is transparent.**  For every call whose
request fits the client's buffer and every result of the host functions: the
client function returns the result of the host function, with no access
outside the packet buffers, exactly when this result is carried. -/
theorem rfs_transparent_iff {o : OpenFlags} {os : OsIo} {basedir client mem : List UInt8}
    (hclient : client.length = clientBufferSize) (hmem : mem.length = serverBufferSize)
    {call : Call} (hfit : RequestFits o call) :
    rfsRun o os basedir client mem call = some (osResult o os basedir call) ↔
      Carried os basedir call := by
  cases call with
  | open_ s flags mode =>
      rw [rfsRun_open hclient hmem hfit, Carried]
      by_cases hpath : FullnameFits basedir s.chars
      · rw [serverFullname_of_fits hpath]
        exact ⟨fun _ => hpath, fun _ => rfl⟩
      · rw [serverFullname_of_not_fits hpath]
        exact ⟨fun h => by simp at h, fun h => absurd h hpath⟩
  | write fd src =>
      rw [rfsRun_write hclient hmem hfit]
      exact ⟨fun _ => trivial, fun _ => rfl⟩
  | read fd count =>
      rw [rfsRun_read hclient hmem, Carried, osResult]
      cases hos : os.read fd count with
      | none => simp
      | some d =>
          by_cases hback : 23 + d.length ≤ clientBufferSize
          · simp [hback]
          · simp [hback]
  | close fd =>
      rw [rfsRun_close hclient hmem]
      exact ⟨fun _ => trivial, fun _ => rfl⟩
  | lseek fd offset whence =>
      rw [rfsRun_lseek hclient hmem]
      exact ⟨fun _ => trivial, fun _ => rfl⟩
  | opendir s =>
      rw [rfsRun_opendir hclient hmem hfit, Carried]
      by_cases hpath : FullnameFits basedir s.chars
      · rw [serverFullname_of_fits hpath]
        exact ⟨fun _ => hpath, fun _ => rfl⟩
      · rw [serverFullname_of_not_fits hpath]
        exact ⟨fun h => by simp at h, fun h => absurd h hpath⟩
  | readdir d =>
      rw [rfsRun_readdir hclient hmem, Carried, osResult, serverReaddirEntry]
      cases hos : os.readdir d with
      | none => simp
      | some s =>
          by_cases hpath : FullnameFits basedir s.chars
          · by_cases hzero : os.open_ (joinPath basedir s.chars) RFS_OPEN_FLAG_RDONLY 0 = 0
            · have hne : (0 : UInt32) ≠ minusOne := by decide
              simp [serverFullname_of_fits hpath, hzero, hne]
            · by_cases hfail : os.open_ (joinPath basedir s.chars) RFS_OPEN_FLAG_RDONLY 0 =
                  minusOne
              · have hne : minusOne ≠ 0 := by decide
                simp [serverFullname_of_fits hpath, hfail, hne]
              · simp [serverFullname_of_fits hpath, hzero, hfail, hpath]
          · simp [serverFullname_of_not_fits hpath, hpath]
  | closedir d =>
      rw [rfsRun_closedir hclient hmem, Carried, osResult]
      constructor
      · intro h
        injection h with h
        injection h with h
        exact h.symm
      · intro h
        rw [h]

/-- A host on which every file operation fails and `closedir` succeeds; its
one directory has the file `a`. -/
def failingOs : OsIo where
  open_ _ _ _ := minusOne
  write _ _ := minusOne
  read _ _ := none
  close _ := minusOne
  lseek _ _ _ := minusOne
  opendir _ := 5
  readdir _ := some ⟨[97], by decide⟩
  closedir _ := 0
  read_le := read_none_le
  readdir_le := by
    intro d name h
    obtain rfl := Option.some.inj h
    decide

/-- The `O_*` constants of the target's newlib. -/
def newlibFlags : OpenFlags where
  O_APPEND := 0x8
  O_CREAT := 0x200
  O_EXCL := 0x800
  O_TRUNC := 0x400
  O_SYNC := 0x2000
  O_RDONLY := 0
  O_WRONLY := 1
  O_RDWR := 2

/-- A failed `close` comes back. -/
theorem rfs_transparent_iff_close :
    rfsRun newlibFlags failingOs [47] (List.replicate 512 0) (List.replicate 4125 0) (.close 3) =
        some (osResult newlibFlags failingOs [47] (.close 3)) ↔
      Carried failingOs [47] (.close 3) :=
  rfs_transparent_iff List.length_replicate List.length_replicate
    (show 23 ≤ 512 by decide)

/-- Handle 5 is closed with result 0, and the client is told 5; a failed
`read` runs out of the packet; an entry that cannot be opened is reported with
size 2^32 - 1. -/
theorem rfs_not_transparent :
    rfsRun newlibFlags failingOs [47] (List.replicate 512 0) (List.replicate 4125 0) (.closedir 5) ≠
        some (osResult newlibFlags failingOs [47] (.closedir 5)) ∧
      rfsRun newlibFlags failingOs [47] (List.replicate 512 0) (List.replicate 4125 0) (.read 3 8) ≠
        some (osResult newlibFlags failingOs [47] (.read 3 8)) ∧
      rfsRun newlibFlags failingOs [47] (List.replicate 512 0) (List.replicate 4125 0) (.readdir 5) ≠
        some (osResult newlibFlags failingOs [47] (.readdir 5)) := by
  have hclient : (List.replicate 512 (0 : UInt8)).length = clientBufferSize :=
    List.length_replicate
  have hmem : (List.replicate 4125 (0 : UInt8)).length = serverBufferSize :=
    List.length_replicate
  refine ⟨?_, ?_, ?_⟩
  · rw [rfsRun_closedir hclient hmem]
    decide
  · rw [rfsRun_read hclient hmem]
    decide
  · rw [rfsRun_readdir hclient hmem]
    decide

end Rfs
