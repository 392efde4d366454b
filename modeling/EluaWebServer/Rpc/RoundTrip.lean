import EluaWebServer.Rpc.Codec

/-!
# Packets as lists of fields, and the round trip

A format string with a matching argument list denotes a list of typed fields.
The writer puts the bytes of these fields between the markers
(`eluarpcGenWrite_eq`), and the reader, walking the same format over any
buffer that starts with those bytes, gives the fields back
(`eluarpcReadFields_of_at`).  The round trip is the composition of the two.
-/

namespace Rpc

open Buffer Word

/-- `xs` stands in the buffer from `p` on. -/
def At (buf : List UInt8) (p : Nat) (xs : List UInt8) : Prop :=
  xs <+: buf.drop p

theorem at_nil (buf : List UInt8) (p : Nat) : At buf p [] :=
  List.nil_prefix

theorem at_cons {buf : List UInt8} {p : Nat} {x : UInt8} {xs : List UInt8} :
    At buf p (x :: xs) ↔ buf[p]? = some x ∧ At buf (p + 1) xs := by
  unfold At
  cases hd : buf.drop p with
  | nil =>
      have hp : buf.length ≤ p := List.drop_eq_nil_iff.mp hd
      simp [List.getElem?_eq_none hp]
  | cons y ys =>
      have hget : buf[p]? = some y := by
        rw [← Nat.add_zero p, ← List.getElem?_drop, hd]
        rfl
      have hdrop : buf.drop (p + 1) = ys := by
        rw [← List.drop_drop, hd]
        rfl
      rw [List.cons_prefix_cons, hget, hdrop, Option.some.injEq, eq_comm]

theorem at_append {buf : List UInt8} {p : Nat} {xs ys : List UInt8} :
    At buf p (xs ++ ys) ↔ At buf p xs ∧ At buf (p + xs.length) ys := by
  induction xs generalizing p with
  | nil => simp [at_nil]
  | cons x xs ih =>
      rw [List.cons_append, at_cons, at_cons, ih, and_assoc, List.length_cons,
        show p + 1 + xs.length = p + (xs.length + 1) by omega]

theorem slice_of_at {buf : List UInt8} {p : Nat} {xs : List UInt8}
    (h : At buf p xs) : slice buf p xs.length = xs :=
  (List.prefix_iff_eq_take.mp h).symm

theorem at_slice (buf : List UInt8) (p n : Nat) : At buf p (slice buf p n) :=
  List.take_prefix n _

theorem at_splice {buf d : List UInt8} {p : Nat} (h : p ≤ buf.length) :
    At (splice buf p d) p d := by
  have hat := at_slice (splice buf p d) p d.length
  rwa [slice_splice h] at hat

/-! ## Fields -/

/-- One field of a packet, with the value it carries. -/
inductive Field where
  | op (id : UInt8)
  | response (id : UInt8)
  | int8 (v : UInt8)
  | int16 (v : UInt16)
  | int32 (v : UInt32)
  | ptr (data : List UInt8)
  | smallPtr (data : List UInt8)
  deriving DecidableEq, Repr

/-- The layout of a field. -/
def Field.bytes : Field → List UInt8
  | .op id => [TYPE_OP_ID, id]
  | .response id => [ELUARPC_OP_RES_MOD ||| id]
  | .int8 v => [TYPE_INT_8, v]
  | .int16 v => TYPE_INT_16 :: bytes16 v
  | .int32 v => TYPE_INT_32 :: bytes32 v
  | .ptr d => TYPE_PTR :: TYPE_INT_32 :: bytes32 d.length.toUInt32 ++ d
  | .smallPtr d => TYPE_SMALL_PTR :: TYPE_INT_16 :: bytes16 d.length.toUInt16 ++ d

def fieldsBytes (fs : List Field) : List UInt8 := fs.flatMap Field.bytes

@[simp] theorem fieldsBytes_nil : fieldsBytes [] = [] := rfl

@[simp] theorem fieldsBytes_append (fs gs : List Field) :
    fieldsBytes (fs ++ gs) = fieldsBytes fs ++ fieldsBytes gs := by
  simp [fieldsBytes]

theorem fieldsBytes_singleton (f : Field) : fieldsBytes [f] = f.bytes := by
  simp [fieldsBytes]

/-- Everything of a packet after its size header. -/
def packetTail (fs : List Field) : List UInt8 :=
  (TYPE_START :: TYPE_INT_32 :: bytes32 PACKET_SIG) ++ fieldsBytes fs ++
    (TYPE_END :: TYPE_INT_32 :: bytes32 (~~~ PACKET_SIG))

/-- The number of bytes of a packet. -/
def packetSize (fs : List Field) : Nat := 16 + (fieldsBytes fs).length

/-- The size header. -/
def packetHeader (n : Nat) : List UInt8 :=
  TYPE_PKT_SIZE :: TYPE_INT_16 :: bytes16 n.toUInt16

def packetBytes (fs : List Field) : List UInt8 :=
  packetHeader (packetSize fs) ++ packetTail fs

theorem packetTail_length (fs : List Field) :
    (packetTail fs).length = 12 + (fieldsBytes fs).length := by
  simp [packetTail]
  omega

theorem packetBytes_length (fs : List Field) : (packetBytes fs).length = packetSize fs := by
  simp only [packetBytes, packetHeader, packetSize, List.length_append, List.length_cons,
    bytes16_length, packetTail_length]
  omega

/-- The field that specifier `c` denotes on the argument list `ap`, with the
arguments left.  A pointer argument is one to at least the given number of
bytes, or any pointer with length 0. -/
def field? (c : Char) (ap : List VaArg) : Option (List Field × List VaArg) :=
  match c, ap with
  | 'o', .int v :: ap => some ([.op v.toUInt8], ap)
  | 'r', .int v :: ap => some ([.response v.toUInt8], ap)
  | 'c', .int v :: ap => some ([.int8 v.toUInt8], ap)
  | 'h', .int v :: ap => some ([.int16 v.toUInt16], ap)
  | 'i', .int v :: ap => some ([.int32 v], ap)
  | 'l', .int v :: ap => some ([.int32 v], ap)
  | 'L', .int v :: ap => some ([.int32 v], ap)
  | 'p', .ptr src :: .int n :: ap =>
      if n.toNat ≤ (src.getD []).length then
        some ([.ptr ((src.getD []).take n.toNat)], ap)
      else none
  | 'P', .ptr src :: .int n :: ap =>
      if n.toUInt16.toNat ≤ (src.getD []).length then
        some ([.smallPtr ((src.getD []).take n.toUInt16.toNat)], ap)
      else none
  | c, ap => if c ∈ ['o', 'r', 'c', 'h', 'i', 'l', 'L', 'p', 'P'] then none else some ([], ap)

/-- The fields that a format string denotes on an argument list; `none` when
the arguments do not match the format. -/
def fields? : List Char → List VaArg → Option (List Field)
  | [], _ => some []
  | c :: fmt, ap => do
      let (f, ap) ← field? c ap
      let fs ← fields? fmt ap
      return f ++ fs

/-- The argument list matches the format string. -/
def Matches (fmt : List Char) (ap : List VaArg) : Prop :=
  (fields? fmt ap).isSome

instance (fmt : List Char) (ap : List VaArg) : Decidable (Matches fmt ap) := by
  unfold Matches; infer_instance

/-! ## The writer -/

theorem Writer.put_eq (w : Writer) (x : UInt8) : w.put x = w.putAll [x] := by
  unfold Writer.put Writer.putAll storeAll
  cases store w.mem w.p x <;> rfl

/-- Two runs of stores are one. -/
theorem Writer.putAll_bind (w : Writer) (xs ys : List UInt8) :
    ((w.putAll xs).bind fun w => w.putAll ys) = w.putAll (xs ++ ys) := by
  unfold Writer.putAll
  rw [storeAll_append]
  cases storeAll w.mem w.p xs with
  | none => rfl
  | some mem =>
      simp only [Option.map_some, Option.bind_some, List.length_append, Nat.add_assoc]

theorem eluarpcWriteU8_eq (w : Writer) (x : UInt8) :
    eluarpcWriteU8 w x = w.putAll [TYPE_INT_8, x] := by
  simp only [eluarpcWriteU8, Writer.put_eq, Option.bind_eq_bind, Writer.putAll_bind]
  rfl

theorem eluarpcWriteOpId_eq (w : Writer) (x : UInt8) :
    eluarpcWriteOpId w x = w.putAll [TYPE_OP_ID, x] := by
  simp only [eluarpcWriteOpId, Writer.put_eq, Option.bind_eq_bind, Writer.putAll_bind]
  rfl

theorem eluarpcWriteU16_eq (w : Writer) (x : UInt16) :
    eluarpcWriteU16 w x = w.putAll (TYPE_INT_16 :: bytes16 x) := by
  simp only [eluarpcWriteU16, Writer.put_eq, Option.bind_eq_bind, Writer.putAll_bind]
  rfl

theorem eluarpcWriteU32_eq (w : Writer) (x : UInt32) :
    eluarpcWriteU32 w x = w.putAll (TYPE_INT_32 :: bytes32 x) := by
  simp only [eluarpcWriteU32, Writer.put_eq, Option.bind_eq_bind, Writer.putAll_bind]
  rfl

/-- With enough bytes behind the pointer, or none asked for, the bytes are
copied. -/
theorem eluarpcCopySrc_eq {src : Option (List UInt8)} {n : Nat}
    (h : n ≤ (src.getD []).length) (w : Writer) :
    eluarpcCopySrc w src n = w.putAll ((src.getD []).take n) := by
  cases src with
  | none =>
      have hn : n = 0 := by simpa using h
      subst hn
      rfl
  | some d =>
      have hd : n ≤ d.length := by simpa using h
      simp [eluarpcCopySrc, hd]

theorem eluarpcWritePtr_eq {src : Option (List UInt8)} {n : UInt32}
    (h : n.toNat ≤ (src.getD []).length) (w : Writer) :
    eluarpcWritePtr w src n =
      w.putAll (Field.ptr ((src.getD []).take n.toNat)).bytes := by
  have hlen : ((src.getD []).take n.toNat).length.toUInt32 = n := by
    rw [List.length_take, Nat.min_eq_left h]
    exact UInt32.ofNat_toNat
  simp only [eluarpcWritePtr, Writer.put_eq, eluarpcWriteU32_eq, eluarpcCopySrc_eq h,
    Option.bind_eq_bind, Field.bytes, hlen]
  rw [← Option.bind_assoc, Writer.putAll_bind, Writer.putAll_bind]
  rfl

theorem eluarpcWriteSmallPtr_eq {src : Option (List UInt8)} {n : UInt16}
    (h : n.toNat ≤ (src.getD []).length) (w : Writer) :
    eluarpcWriteSmallPtr w src n =
      w.putAll (Field.smallPtr ((src.getD []).take n.toNat)).bytes := by
  have hlen : ((src.getD []).take n.toNat).length.toUInt16 = n := by
    rw [List.length_take, Nat.min_eq_left h]
    exact UInt16.ofNat_toNat
  simp only [eluarpcWriteSmallPtr, Writer.put_eq, eluarpcWriteU16_eq, eluarpcCopySrc_eq h,
    Option.bind_eq_bind, Field.bytes, hlen]
  rw [← Option.bind_assoc, Writer.putAll_bind, Writer.putAll_bind]
  rfl

/-- A character that is no specifier is passed over. -/
theorem eluarpcWriteField_other {c : Char} (hc : c ∉ ['o', 'r', 'c', 'h', 'i', 'l', 'L', 'p', 'P'])
    (w : Writer) (ap : List VaArg) : eluarpcWriteField w c ap = some (w, ap) := by
  unfold eluarpcWriteField
  split
  on_goal 10 => exact if_neg hc
  all_goals exact absurd (by decide) hc

/-- One round of the writer stores the bytes of the field it denotes. -/
theorem eluarpcWriteField_eq {c : Char} {ap ap' : List VaArg} {f : List Field}
    (h : field? c ap = some (f, ap')) (w : Writer) :
    eluarpcWriteField w c ap = (w.putAll (fieldsBytes f)).map (·, ap') := by
  unfold field? at h
  split at h <;> try (simp only [Option.some.injEq, Prod.mk.injEq] at h; obtain ⟨rfl, rfl⟩ := h)
  · simp [eluarpcWriteField, eluarpcWriteOpId_eq, fieldsBytes_singleton, Field.bytes]
  · simp [eluarpcWriteField, Writer.put_eq, fieldsBytes_singleton, Field.bytes]
  · simp [eluarpcWriteField, eluarpcWriteU8_eq, fieldsBytes_singleton, Field.bytes]
  · simp [eluarpcWriteField, eluarpcWriteU16_eq, fieldsBytes_singleton, Field.bytes]
  · simp [eluarpcWriteField, eluarpcWriteU32_eq, fieldsBytes_singleton, Field.bytes]
  · simp [eluarpcWriteField, eluarpcWriteU32_eq, fieldsBytes_singleton, Field.bytes]
  · simp [eluarpcWriteField, eluarpcWriteU32_eq, fieldsBytes_singleton, Field.bytes]
  · split at h
    · next hn =>
      simp only [Option.some.injEq, Prod.mk.injEq] at h
      obtain ⟨rfl, rfl⟩ := h
      simp [eluarpcWriteField, eluarpcWritePtr_eq hn, fieldsBytes_singleton]
    · simp at h
  · split at h
    · next hn =>
      simp only [Option.some.injEq, Prod.mk.injEq] at h
      obtain ⟨rfl, rfl⟩ := h
      simp [eluarpcWriteField, eluarpcWriteSmallPtr_eq hn, fieldsBytes_singleton]
    · simp at h
  · split at h
    · simp at h
    · next hc =>
      simp only [Option.some.injEq, Prod.mk.injEq] at h
      obtain ⟨rfl, rfl⟩ := h
      rw [eluarpcWriteField_other hc]
      rfl

/-- The writer's loop stores the bytes of the fields the format denotes. -/
theorem eluarpcWriteFields_eq {fmt : List Char} {ap : List VaArg} {fs : List Field}
    (h : fields? fmt ap = some fs) (w : Writer) :
    eluarpcWriteFields w fmt ap = w.putAll (fieldsBytes fs) := by
  induction fmt generalizing ap fs w with
  | nil =>
      simp only [fields?, Option.some.injEq] at h
      subst h
      rfl
  | cons c fmt ih =>
      simp only [fields?, Option.bind_eq_bind, Option.bind_eq_some_iff, Prod.exists] at h
      obtain ⟨f, ap', hf, gs, hgs, hfs⟩ := h
      simp only [Option.pure_def, Option.some.injEq] at hfs
      subst hfs
      rw [eluarpcWriteFields, eluarpcWriteField_eq hf, fieldsBytes_append,
        ← Writer.putAll_bind]
      cases w.putAll (fieldsBytes f) with
      | none => rfl
      | some w' =>
          simp only [Option.map_some, Option.bind_eq_bind, Option.bind_some]
          exact ih hgs w'

/-- The end marker and the patched header, on a buffer with room for them. -/
theorem eluarpcEndPacket_eq {w : Writer} (h : w.p + 6 ≤ w.mem.length) :
    (eluarpcEndPacket w).map Writer.mem =
      some (splice (splice w.mem w.p (TYPE_END :: TYPE_INT_32 :: bytes32 (~~~ PACKET_SIG))) 0
        (packetHeader (w.p + 6))) := by
  have hend : ((w.put TYPE_END).bind fun w => eluarpcWriteU32 w (~~~ PACKET_SIG)) =
      w.putAll (TYPE_END :: TYPE_INT_32 :: bytes32 (~~~ PACKET_SIG)) := by
    simp only [Writer.put_eq, eluarpcWriteU32_eq, Writer.putAll_bind]
    rfl
  have hhdr : ∀ (v : Writer) (n : UInt16),
      ((v.put TYPE_PKT_SIZE).bind fun w => eluarpcWriteU16 w n) =
        v.putAll (TYPE_PKT_SIZE :: TYPE_INT_16 :: bytes16 n) := by
    intro v n
    simp only [Writer.put_eq, eluarpcWriteU16_eq, Writer.putAll_bind]
    rfl
  simp only [eluarpcEndPacket, Option.bind_eq_bind]
  rw [← Option.bind_assoc, hend, Writer.putAll, storeAll_eq_splice (by simpa using h)]
  simp only [Option.map_some, Option.bind_some, hhdr]
  rw [Writer.putAll, storeAll_eq_splice (by rw [splice_length (by simpa using h)]; simp; omega)]
  rfl

/-- Without room for the end marker it is stored outside the buffer. -/
theorem eluarpcEndPacket_eq_none {w : Writer} (h : w.mem.length < w.p + 6) :
    eluarpcEndPacket w = none := by
  have hend : ((w.put TYPE_END).bind fun w => eluarpcWriteU32 w (~~~ PACKET_SIG)) = none := by
    simp only [Writer.put_eq, eluarpcWriteU32_eq, Writer.putAll_bind]
    rw [Writer.putAll, storeAll_eq_none (by simpa using h) (by simp)]
    rfl
  simp only [eluarpcEndPacket, Option.bind_eq_bind]
  rw [← Option.bind_assoc, hend, Option.bind_none]

theorem eluarpcStartPacket_eq (mem : List UInt8) :
    eluarpcStartPacket mem =
      Writer.putAll ⟨mem, 4⟩ (TYPE_START :: TYPE_INT_32 :: bytes32 PACKET_SIG) := by
  simp only [eluarpcStartPacket, Writer.put_eq, eluarpcWriteU32_eq, Option.bind_eq_bind,
    Writer.putAll_bind]
  rfl

/-- **The writer.**  On a buffer with room for the packet, `eluarpc_gen_write`
puts exactly the packet at its start. -/
theorem eluarpcGenWrite_eq {fmt : List Char} {ap : List VaArg} {fs : List Field}
    (h : fields? fmt ap = some fs) {mem : List UInt8} (hmem : packetSize fs ≤ mem.length) :
    eluarpcGenWrite mem fmt ap = some (packetBytes fs ++ mem.drop (packetSize fs)) := by
  have hbody : ((eluarpcStartPacket mem).bind fun w => eluarpcWriteFields w fmt ap) =
      Writer.putAll ⟨mem, 4⟩
        ((TYPE_START :: TYPE_INT_32 :: bytes32 PACKET_SIG) ++ fieldsBytes fs) := by
    rw [eluarpcStartPacket_eq, ← Writer.putAll_bind]
    simp only [eluarpcWriteFields_eq h]
  unfold packetSize at hmem
  simp only [eluarpcGenWrite, Option.bind_eq_bind]
  rw [← Option.bind_assoc, hbody, Writer.putAll,
    storeAll_eq_splice (by simp; omega)]
  simp only [Option.map_some, Option.bind_some, Option.pure_def]
  have hlen : 4 + (TYPE_START :: TYPE_INT_32 :: bytes32 PACKET_SIG ++ fieldsBytes fs).length + 6
      = packetSize fs := by
    simp [packetSize]
    omega
  have hend := eluarpcEndPacket_eq
    (w := ⟨splice mem 4 (TYPE_START :: TYPE_INT_32 :: bytes32 PACKET_SIG ++ fieldsBytes fs),
      4 + (TYPE_START :: TYPE_INT_32 :: bytes32 PACKET_SIG ++ fieldsBytes fs).length⟩)
    (by rw [splice_length (by simp; omega), hlen]; unfold packetSize; omega)
  rw [hlen, splice_splice _ _ (by simp; omega)] at hend
  rw [show (fun w : Writer => some w.mem) = some ∘ Writer.mem from rfl, ← Option.map_eq_bind,
    hend]
  have hhdr : (packetHeader (packetSize fs)).length ≤ mem.length := by
    simp [packetHeader]
    omega
  have hsplice : splice (splice mem 4 (packetTail fs)) 0 (packetHeader (packetSize fs)) =
      splice mem 0 (packetHeader (packetSize fs) ++ packetTail fs) :=
    splice_zero_splice hhdr
  calc some (splice (splice mem 4 (packetTail fs)) 0 (packetHeader (packetSize fs)))
      = some (splice mem 0 (packetBytes fs)) := congrArg some hsplice
    _ = some (packetBytes fs ++ mem.drop (packetSize fs)) := by
      simp [splice, packetBytes_length]

/-! ## The reader -/

/-- The flag after a comparison that came out as `ok`. -/
def ErrFlag.check (e : ErrFlag) (ok : Bool) : ErrFlag :=
  if ok then e else ELUARPC_ERR

@[simp] theorem ErrFlag.check_true (e : ErrFlag) : e.check true = e := rfl

theorem ErrFlag.check_eq_ok {e : ErrFlag} {ok : Bool} :
    e.check ok = ELUARPC_OK ↔ e = ELUARPC_OK ∧ ok = true := by
  cases ok <;> simp [check]

theorem Reader.next_of_at {buf : List UInt8} {p : Nat} {x : UInt8} {xs : List UInt8}
    (h : At buf p (x :: xs)) (e : ErrFlag) :
    Reader.next buf ⟨p, e⟩ = some (x, ⟨p + 1, e⟩) := by
  simp [Reader.next, (at_cons.mp h).1]

theorem eluarpcReadExpect_of_at {buf : List UInt8} {p : Nat} {x : UInt8} {xs : List UInt8}
    (h : At buf p (x :: xs)) (e : ErrFlag) (t : UInt8) :
    eluarpcReadExpect buf ⟨p, e⟩ t = some ⟨p + 1, e.check (x = t)⟩ := by
  rw [eluarpcReadExpect, Reader.next_of_at h]
  by_cases hx : x = t <;> simp [hx, ErrFlag.check]

theorem eluarpcReadU8_of_at {buf : List UInt8} {p : Nat} {t x : UInt8} {xs : List UInt8}
    (h : At buf p (t :: x :: xs)) (e : ErrFlag) :
    eluarpcReadU8 buf ⟨p, e⟩ = some (x, ⟨p + 2, e.check (t = TYPE_INT_8)⟩) := by
  rw [eluarpcReadU8, eluarpcReadExpect_of_at h]
  exact Reader.next_of_at (at_cons.mp h).2 _

theorem eluarpcReadOpId_of_at {buf : List UInt8} {p : Nat} {t x : UInt8} {xs : List UInt8}
    (h : At buf p (t :: x :: xs)) (e : ErrFlag) :
    eluarpcReadOpId buf ⟨p, e⟩ = some (x, ⟨p + 2, e.check (t = TYPE_OP_ID)⟩) := by
  rw [eluarpcReadOpId, eluarpcReadExpect_of_at h]
  exact Reader.next_of_at (at_cons.mp h).2 _

theorem eluarpcExpectOpId_of_at {buf : List UInt8} {p : Nat} {t x : UInt8} {xs : List UInt8}
    (h : At buf p (t :: x :: xs)) (e : ErrFlag) (id : UInt8) :
    eluarpcExpectOpId buf ⟨p, e⟩ id =
      some ⟨p + 2, e.check (t = TYPE_OP_ID && x = id)⟩ := by
  rw [eluarpcExpectOpId, eluarpcReadExpect_of_at h]
  simp only [Option.bind_eq_bind, Option.bind_some, Reader.next_of_at (at_cons.mp h).2]
  by_cases ht : t = TYPE_OP_ID <;> by_cases hx : x = id <;> simp [ht, hx, ErrFlag.check]

theorem eluarpcReadU16_of_at {buf : List UInt8} {p : Nat} {t b0 b1 : UInt8}
    {xs : List UInt8} (h : At buf p (t :: b0 :: b1 :: xs)) (e : ErrFlag) :
    eluarpcReadU16 buf ⟨p, e⟩ =
      some (ofBytes16 b0 b1, ⟨p + 3, e.check (t = TYPE_INT_16)⟩) := by
  have h1 := (at_cons.mp h).2
  have h2 := (at_cons.mp h1).2
  simp only [eluarpcReadU16, eluarpcReadExpect_of_at h, Option.bind_eq_bind, Option.bind_some,
    Reader.next_of_at h1, Reader.next_of_at h2]
  rfl

theorem eluarpcReadU32_of_at {buf : List UInt8} {p : Nat} {t b0 b1 b2 b3 : UInt8}
    {xs : List UInt8} (h : At buf p (t :: b0 :: b1 :: b2 :: b3 :: xs)) (e : ErrFlag) :
    eluarpcReadU32 buf ⟨p, e⟩ =
      some (ofBytes32 b0 b1 b2 b3, ⟨p + 5, e.check (t = TYPE_INT_32)⟩) := by
  have h1 := (at_cons.mp h).2
  have h2 := (at_cons.mp h1).2
  have h3 := (at_cons.mp h2).2
  have h4 := (at_cons.mp h3).2
  simp only [eluarpcReadU32, eluarpcReadExpect_of_at h, Option.bind_eq_bind, Option.bind_some,
    Reader.next_of_at h1, Reader.next_of_at h2, Reader.next_of_at h3, Reader.next_of_at h4]
  rfl

theorem eluarpcReadPtr_of_at {buf : List UInt8} {p : Nat} {s t b0 b1 b2 b3 : UInt8}
    {xs : List UInt8} (h : At buf p (s :: t :: b0 :: b1 :: b2 :: b3 :: xs)) (e : ErrFlag) :
    eluarpcReadPtr buf ⟨p, e⟩ =
      some (ofBytes32 b0 b1 b2 b3, ⟨p + 6 + (ofBytes32 b0 b1 b2 b3).toNat,
        e.check (s = TYPE_PTR && t = TYPE_INT_32)⟩) := by
  simp only [eluarpcReadPtr, eluarpcReadExpect_of_at h, Option.bind_eq_bind, Option.bind_some,
    eluarpcReadU32_of_at (at_cons.mp h).2]
  by_cases hs : s = TYPE_PTR <;> by_cases ht : t = TYPE_INT_32 <;>
    simp [hs, ht, ErrFlag.check]

theorem eluarpcReadSmallPtr_of_at {buf : List UInt8} {p : Nat} {s t b0 b1 : UInt8}
    {xs : List UInt8} (h : At buf p (s :: t :: b0 :: b1 :: xs)) (e : ErrFlag) :
    eluarpcReadSmallPtr buf ⟨p, e⟩ =
      some (ofBytes16 b0 b1, ⟨p + 4 + (ofBytes16 b0 b1).toNat,
        e.check (s = TYPE_SMALL_PTR && t = TYPE_INT_16)⟩) := by
  simp only [eluarpcReadSmallPtr, eluarpcReadExpect_of_at h, Option.bind_eq_bind,
    Option.bind_some, eluarpcReadU16_of_at (at_cons.mp h).2]
  by_cases hs : s = TYPE_SMALL_PTR <;> by_cases ht : t = TYPE_INT_16 <;>
    simp [hs, ht, ErrFlag.check]

/-! The same on the bytes of a word. -/

theorem eluarpcReadU16_of_word {buf : List UInt8} {p : Nat} {t : UInt8} {v : UInt16}
    (h : At buf p (t :: bytes16 v)) (e : ErrFlag) :
    eluarpcReadU16 buf ⟨p, e⟩ = some (v, ⟨p + 3, e.check (t = TYPE_INT_16)⟩) := by
  rw [bytes16] at h
  rw [eluarpcReadU16_of_at h, ofBytes16_bytes16]

theorem eluarpcReadU32_of_word {buf : List UInt8} {p : Nat} {t : UInt8} {v : UInt32}
    (h : At buf p (t :: bytes32 v)) (e : ErrFlag) :
    eluarpcReadU32 buf ⟨p, e⟩ = some (v, ⟨p + 5, e.check (t = TYPE_INT_32)⟩) := by
  rw [bytes32] at h
  rw [eluarpcReadU32_of_at h, ofBytes32_bytes32]

theorem eluarpcReadPtr_of_word {buf : List UInt8} {p : Nat} {v : UInt32}
    (h : At buf p (TYPE_PTR :: TYPE_INT_32 :: bytes32 v)) (e : ErrFlag) :
    eluarpcReadPtr buf ⟨p, e⟩ = some (v, ⟨p + 6 + v.toNat, e⟩) := by
  rw [bytes32] at h
  rw [eluarpcReadPtr_of_at h, ofBytes32_bytes32]
  simp

theorem eluarpcReadSmallPtr_of_word {buf : List UInt8} {p : Nat} {v : UInt16}
    (h : At buf p (TYPE_SMALL_PTR :: TYPE_INT_16 :: bytes16 v)) (e : ErrFlag) :
    eluarpcReadSmallPtr buf ⟨p, e⟩ = some (v, ⟨p + 4 + v.toNat, e⟩) := by
  rw [bytes16] at h
  rw [eluarpcReadSmallPtr_of_at h, ofBytes16_bytes16]
  simp

/-! ## Which fields a specifier stands for -/

/-- The field that one specifier reads or writes. -/
inductive Denotes : Char → List Field → Prop
  | op (id : UInt8) : Denotes 'o' [.op id]
  | response (id : UInt8) : Denotes 'r' [.response id]
  | int8 (v : UInt8) : Denotes 'c' [.int8 v]
  | int16 (v : UInt16) : Denotes 'h' [.int16 v]
  | int32 (c : Char) (v : UInt32) (hc : c = 'i' ∨ c = 'l' ∨ c = 'L') : Denotes c [.int32 v]
  | ptr (d : List UInt8) (hd : d.length < 2 ^ 32) : Denotes 'p' [.ptr d]
  | smallPtr (d : List UInt8) (hd : d.length < 2 ^ 16) : Denotes 'P' [.smallPtr d]
  | other (c : Char) (hc : c ∉ ['o', 'r', 'c', 'h', 'i', 'l', 'L', 'p', 'P']) : Denotes c []

/-- The fields that a format string reads or writes. -/
inductive DenotesAll : List Char → List Field → Prop
  | nil : DenotesAll [] []
  | cons {c : Char} {fmt : List Char} {f fs : List Field} (head : Denotes c f)
      (tail : DenotesAll fmt fs) : DenotesAll (c :: fmt) (f ++ fs)

theorem denotes_of_field? {c : Char} {ap ap' : List VaArg} {f : List Field}
    (h : field? c ap = some (f, ap')) : Denotes c f := by
  unfold field? at h
  split at h
  case h_8 src n ap =>
      split at h
      · next hn =>
        simp only [Option.some.injEq, Prod.mk.injEq] at h
        obtain ⟨rfl, rfl⟩ := h
        refine .ptr _ ?_
        have := n.toNat_lt
        rw [List.length_take]
        omega
      · simp at h
  case h_9 src n ap =>
      split at h
      · next hn =>
        simp only [Option.some.injEq, Prod.mk.injEq] at h
        obtain ⟨rfl, rfl⟩ := h
        refine .smallPtr _ ?_
        have := n.toUInt16.toNat_lt
        rw [List.length_take]
        omega
      · simp at h
  case h_10 =>
      split at h
      · simp at h
      · next hc =>
        simp only [Option.some.injEq, Prod.mk.injEq] at h
        obtain ⟨rfl, rfl⟩ := h
        exact .other _ hc
  all_goals
    simp only [Option.some.injEq, Prod.mk.injEq] at h
    obtain ⟨rfl, rfl⟩ := h
    constructor
  all_goals simp

theorem denotesAll_of_fields? {fmt : List Char} {ap : List VaArg} {fs : List Field}
    (h : fields? fmt ap = some fs) : DenotesAll fmt fs := by
  induction fmt generalizing ap fs with
  | nil =>
      simp only [fields?, Option.some.injEq] at h
      exact h ▸ .nil
  | cons c fmt ih =>
      simp only [fields?, Option.bind_eq_bind, Option.bind_eq_some_iff, Prod.exists] at h
      obtain ⟨f, ap', hf, gs, hgs, hfs⟩ := h
      simp only [Option.pure_def, Option.some.injEq] at hfs
      exact hfs ▸ .cons (denotes_of_field? hf) (ih hgs)

/-- A decoded pointer designates the bytes `d`, inside the first `lim` bytes
of the buffer; the pointer to no bytes is `NULL`. -/
def PointsTo (buf : List UInt8) (lim : Nat) (d : List UInt8) : Option Nat → Prop
  | none => d = []
  | some o => d ≠ [] ∧ At buf o d ∧ o + d.length ≤ lim

/-- The bytes behind a decoded pointer. -/
theorem PointsTo.getD_slice {buf : List UInt8} {lim : Nat} {d : List UInt8}
    {off : Option Nat} (h : PointsTo buf lim d off) :
    ((off.map fun o => slice buf o d.length).getD []) = d := by
  cases off with
  | none =>
      have hd : d = [] := h
      rw [hd]
      rfl
  | some o => exact slice_of_at h.2.1

/-- The decoded values are the values of the fields. -/
def Designates (buf : List UInt8) (lim : Nat) : List Field → List Value → Prop
  | [], vs => vs = []
  | .op _ :: fs, vs => Designates buf lim fs vs
  | .response _ :: fs, vs => Designates buf lim fs vs
  | .int8 v :: fs, .u8 v' :: vs => v' = v ∧ Designates buf lim fs vs
  | .int16 v :: fs, .u16 v' :: vs => v' = v ∧ Designates buf lim fs vs
  | .int32 v :: fs, .u32 v' :: vs => v' = v ∧ Designates buf lim fs vs
  | .ptr d :: fs, .ptr off n :: vs =>
      PointsTo buf lim d off ∧ n.toNat = d.length ∧ Designates buf lim fs vs
  | .smallPtr d :: fs, .smallPtr off n :: vs =>
      PointsTo buf lim d off ∧ n.toNat = d.length ∧ Designates buf lim fs vs
  | _, _ => False

/-- The operation ids among the fields, in order. -/
def opIds : List Field → List UInt8
  | [] => []
  | .op id :: fs => id :: opIds fs
  | .response id :: fs => id :: opIds fs
  | _ :: fs => opIds fs

theorem opIds_append_of_denotes {c : Char} {f : List Field} (h : Denotes c f)
    (fs : List Field) : opIds (f ++ fs) = opIds f ++ opIds fs := by
  cases h <;> rfl

section Inversion

variable {buf : List UInt8} {lim : Nat} {fs : List Field} {vs : List Value}

theorem Designates.u8 {v : UInt8} (h : Designates buf lim (.int8 v :: fs) vs) :
    ∃ vs', vs = .u8 v :: vs' ∧ Designates buf lim fs vs' := by
  cases vs with
  | nil => cases h
  | cons w vs =>
      cases w with
      | u8 x =>
          obtain ⟨rfl, h⟩ := h
          exact ⟨vs, rfl, h⟩
      | u16 | u32 | ptr | smallPtr => cases h

theorem Designates.u16 {v : UInt16} (h : Designates buf lim (.int16 v :: fs) vs) :
    ∃ vs', vs = .u16 v :: vs' ∧ Designates buf lim fs vs' := by
  cases vs with
  | nil => cases h
  | cons w vs =>
      cases w with
      | u16 x =>
          obtain ⟨rfl, h⟩ := h
          exact ⟨vs, rfl, h⟩
      | u8 | u32 | ptr | smallPtr => cases h

theorem Designates.u32 {v : UInt32} (h : Designates buf lim (.int32 v :: fs) vs) :
    ∃ vs', vs = .u32 v :: vs' ∧ Designates buf lim fs vs' := by
  cases vs with
  | nil => cases h
  | cons w vs =>
      cases w with
      | u32 x =>
          obtain ⟨rfl, h⟩ := h
          exact ⟨vs, rfl, h⟩
      | u8 | u16 | ptr | smallPtr => cases h

theorem Designates.ptr {d : List UInt8} (h : Designates buf lim (.ptr d :: fs) vs) :
    ∃ off n vs', vs = .ptr off n :: vs' ∧ PointsTo buf lim d off ∧ n.toNat = d.length ∧
      Designates buf lim fs vs' := by
  cases vs with
  | nil => cases h
  | cons w vs =>
      cases w with
      | ptr off n => exact ⟨off, n, vs, rfl, h⟩
      | u8 | u16 | u32 | smallPtr => cases h

theorem Designates.smallPtr {d : List UInt8} (h : Designates buf lim (.smallPtr d :: fs) vs) :
    ∃ off n vs', vs = .smallPtr off n :: vs' ∧ PointsTo buf lim d off ∧ n.toNat = d.length ∧
      Designates buf lim fs vs' := by
  cases vs with
  | nil => cases h
  | cons w vs =>
      cases w with
      | smallPtr off n => exact ⟨off, n, vs, rfl, h⟩
      | u8 | u16 | u32 | ptr => cases h

end Inversion

theorem Designates.append {buf : List UInt8} {lim : Nat} {c : Char} {f fs : List Field}
    {vs vs' : List Value} (hf : Denotes c f) (h : Designates buf lim f vs)
    (h' : Designates buf lim fs vs') : Designates buf lim (f ++ fs) (vs ++ vs') := by
  cases hf with
  | op id => simpa [Designates, show vs = [] from h] using h'
  | response id => simpa [Designates, show vs = [] from h] using h'
  | other c hc => simpa [Designates, show vs = [] from h] using h'
  | int8 v =>
      obtain ⟨_, rfl, rfl⟩ := h.u8
      exact ⟨rfl, h'⟩
  | int16 v =>
      obtain ⟨_, rfl, rfl⟩ := h.u16
      exact ⟨rfl, h'⟩
  | int32 c v hc =>
      obtain ⟨_, rfl, rfl⟩ := h.u32
      exact ⟨rfl, h'⟩
  | ptr d hd =>
      obtain ⟨_, _, _, rfl, hp, hn, rfl⟩ := h.ptr
      exact ⟨hp, hn, h'⟩
  | smallPtr d hd =>
      obtain ⟨_, _, _, rfl, hp, hn, rfl⟩ := h.smallPtr
      exact ⟨hp, hn, h'⟩

/-- The offset of a decoded pointer: data of length 0 is recognised by where
the read pointer ends. -/
theorem pointsTo_of_at {buf : List UInt8} {lim o : Nat} {d : List UInt8}
    (h : At buf o d) (hlim : o + d.length ≤ lim) :
    PointsTo buf lim d (if o + d.length = o then none else some o) := by
  by_cases hd : d.length = 0
  · have hnil : d = [] := List.eq_nil_of_length_eq_zero hd
    simp [hnil, PointsTo]
  · rw [if_neg (by omega)]
    exact ⟨fun hnil => hd (by simp [hnil]), h, hlim⟩

/-- **One round of the reader** on the bytes of the field: the flag is left
alone, the pointer moves past the field, and the values are the field's. -/
theorem eluarpcReadField_of_at {buf : List UInt8} {p lim : Nat} {c : Char} {f : List Field}
    {ids : List UInt32} (hf : Denotes c f) (hids : ids.map (·.toUInt8) = opIds f)
    (h : At buf p (fieldsBytes f)) (hlim : p + (fieldsBytes f).length ≤ lim)
    (e : ErrFlag) (rest : List UInt32) :
    ∃ vs, eluarpcReadField buf ⟨p, e⟩ c (ids ++ rest) =
      some (vs, ⟨p + (fieldsBytes f).length, e⟩, rest) ∧ Designates buf lim f vs := by
  cases hf with
  | op id =>
      obtain ⟨i, rfl, rfl⟩ : ∃ i, ids = [i] ∧ i.toUInt8 = id := by
        simpa [opIds, List.map_eq_cons_iff] using hids
      refine ⟨[], ?_, rfl⟩
      rw [fieldsBytes_singleton, Field.bytes] at h
      simp [eluarpcReadField, eluarpcExpectOpId_of_at h, fieldsBytes_singleton, Field.bytes]
  | response id =>
      obtain ⟨i, rfl, rfl⟩ : ∃ i, ids = [i] ∧ i.toUInt8 = id := by
        simpa [opIds, List.map_eq_cons_iff] using hids
      refine ⟨[], ?_, rfl⟩
      rw [fieldsBytes_singleton, Field.bytes] at h
      simp [eluarpcReadField, eluarpcReadExpect_of_at h, fieldsBytes_singleton, Field.bytes]
  | int8 v =>
      obtain rfl : ids = [] := by simpa [opIds] using hids
      refine ⟨[.u8 v], ?_, rfl, rfl⟩
      rw [fieldsBytes_singleton, Field.bytes] at h
      simp [eluarpcReadField, eluarpcReadU8_of_at h, fieldsBytes_singleton, Field.bytes]
  | int16 v =>
      obtain rfl : ids = [] := by simpa [opIds] using hids
      refine ⟨[.u16 v], ?_, rfl, rfl⟩
      rw [fieldsBytes_singleton, Field.bytes] at h
      simp [eluarpcReadField, eluarpcReadU16_of_word h, fieldsBytes_singleton, Field.bytes]
  | int32 c v hc =>
      obtain rfl : ids = [] := by simpa [opIds] using hids
      refine ⟨[.u32 v], ?_, rfl, rfl⟩
      rw [fieldsBytes_singleton, Field.bytes] at h
      rcases hc with rfl | rfl | rfl <;>
        simp [eluarpcReadField, eluarpcReadU32_of_word h, fieldsBytes_singleton, Field.bytes]
  | ptr d hd =>
      obtain rfl : ids = [] := by simpa [opIds] using hids
      rw [fieldsBytes_singleton, Field.bytes] at h hlim
      have hn : d.length.toUInt32.toNat = d.length := Nat.mod_eq_of_lt hd
      have hdata : At buf (p + 6) d := (at_append.mp h).2
      have hhead := (at_append.mp h).1
      have hin : p + 6 + d.length ≤ lim := by
        simp at hlim
        omega
      have hoff := pointsTo_of_at hdata hin
      refine ⟨[.ptr (if p + 6 + d.length = p + 6 then none else some (p + 6))
        d.length.toUInt32], ?_, hoff, hn, rfl⟩
      simp [eluarpcReadField, eluarpcReadPtr_of_word hhead, fieldsBytes_singleton, Field.bytes,
        hn, ELUARPC_PTR_HEADER_SIZE]
      omega
  | smallPtr d hd =>
      obtain rfl : ids = [] := by simpa [opIds] using hids
      rw [fieldsBytes_singleton, Field.bytes] at h hlim
      have hn : d.length.toUInt16.toNat = d.length := Nat.mod_eq_of_lt hd
      have hdata : At buf (p + 4) d := (at_append.mp h).2
      have hhead := (at_append.mp h).1
      have hin : p + 4 + d.length ≤ lim := by
        simp at hlim
        omega
      have hoff := pointsTo_of_at hdata hin
      refine ⟨[.smallPtr (if p + 4 + d.length = p + 4 then none else some (p + 4))
        d.length.toUInt16], ?_, hoff, hn, rfl⟩
      simp [eluarpcReadField, eluarpcReadSmallPtr_of_word hhead, fieldsBytes_singleton, Field.bytes,
        hn, ELUARPC_SMALL_PTR_HEADER_SIZE]
      omega
  | other c hc =>
      obtain rfl : ids = [] := by simpa [opIds] using hids
      refine ⟨[], ?_, rfl⟩
      simp only [List.mem_cons, List.not_mem_nil, or_false, not_or] at hc
      obtain ⟨ho, hr, hc, hh, hi, hl, hL, hp, hP⟩ := hc
      simp only [List.nil_append, fieldsBytes_nil, List.length_nil, Nat.add_zero]
      unfold eluarpcReadField
      split <;> first | rfl | contradiction

/-- **The reader's loop** on the bytes of the fields the format denotes. -/
theorem eluarpcReadFields_of_at {buf : List UInt8} {p lim : Nat} {fmt : List Char}
    {fs : List Field} {ids : List UInt32} (hfs : DenotesAll fmt fs)
    (hids : ids.map (·.toUInt8) = opIds fs) (h : At buf p (fieldsBytes fs))
    (hlim : p + (fieldsBytes fs).length ≤ lim) (e : ErrFlag) :
    ∃ vs, eluarpcReadFields buf ⟨p, e⟩ fmt ids =
      some (vs, ⟨p + (fieldsBytes fs).length, e⟩) ∧ Designates buf lim fs vs := by
  induction hfs generalizing p ids with
  | nil => exact ⟨[], rfl, rfl⟩
  | @cons c fmt f fs head tail ih =>
      rw [opIds_append_of_denotes head, List.map_eq_append_iff] at hids
      obtain ⟨ids₁, ids₂, rfl, h₁, h₂⟩ := hids
      rw [fieldsBytes_append, at_append] at h
      rw [fieldsBytes_append, List.length_append] at hlim
      have hin : p + (fieldsBytes f).length ≤ lim := by omega
      obtain ⟨vs, hvs, hd⟩ := eluarpcReadField_of_at head h₁ h.1 hin e ids₂
      obtain ⟨vs', hvs', hd'⟩ := ih h₂ h.2 (by omega)
      refine ⟨vs ++ vs', ?_, hd.append head hd'⟩
      simp only [eluarpcReadFields, hvs, Option.bind_eq_bind, Option.bind_some, hvs',
        Option.pure_def, fieldsBytes_append, List.length_append, Nat.add_assoc]

theorem eluarpcMatchPacketStart_of_at {buf : List UInt8}
    (h : At buf 4 (TYPE_START :: TYPE_INT_32 :: bytes32 PACKET_SIG)) :
    eluarpcMatchPacketStart buf ⟨0, ELUARPC_OK⟩ = some ⟨10, ELUARPC_OK⟩ := by
  simp [eluarpcMatchPacketStart, ELUARPC_START_OFFSET, eluarpcReadExpect_of_at h,
    eluarpcReadU32_of_word (at_cons.mp h).2]

/-- **The reader** on a buffer that starts with a packet. -/
theorem eluarpcGenRead_of_at {buf : List UInt8} {fmt : List Char} {fs : List Field}
    {ids : List UInt32} (hfs : DenotesAll fmt fs) (hids : ids.map (·.toUInt8) = opIds fs)
    (h : At buf 4 (packetTail fs)) :
    ∃ vs, eluarpcGenRead buf fmt ids = some (vs, ELUARPC_OK) ∧
      Designates buf (packetSize fs) fs vs := by
  rw [packetTail, at_append, at_append] at h
  obtain ⟨⟨hstart, hbody⟩, hend⟩ := h
  have hin : 10 + (fieldsBytes fs).length ≤ packetSize fs := by
    unfold packetSize
    omega
  have hfields : At buf 10 (fieldsBytes fs) := hbody
  obtain ⟨vs, hvs, hd⟩ := eluarpcReadFields_of_at hfs hids hfields hin ELUARPC_OK
  refine ⟨vs, ?_, hd⟩
  have hmatch := eluarpcMatchPacketStart_of_at hstart
  have hmatchEnd : eluarpcMatchPacketEnd buf ⟨10 + (fieldsBytes fs).length, ELUARPC_OK⟩ =
      some ⟨10 + (fieldsBytes fs).length + 6, ELUARPC_OK⟩ := by
    have hpos : 4 + (TYPE_START :: TYPE_INT_32 :: bytes32 PACKET_SIG ++ fieldsBytes fs).length =
        10 + (fieldsBytes fs).length := by
      simp
      omega
    rw [hpos] at hend
    have h6 := (at_cons.mp hend).2
    simp [eluarpcMatchPacketEnd, eluarpcReadExpect_of_at hend, eluarpcReadU32_of_word h6]
  simp only [eluarpcGenRead, hmatch, Option.bind_eq_bind, Option.bind_some, hvs, hmatchEnd,
    Option.pure_def]

/-- The operation id of a request packet. -/
theorem eluarpcGetRequestId_of_at {buf : List UInt8} {id : UInt8} {fs : List Field}
    (h : At buf 4 (packetTail (.op id :: fs))) :
    eluarpcGetRequestId buf = some (id, ELUARPC_OK) := by
  rw [packetTail, at_append, at_append] at h
  obtain ⟨⟨hstart, hbody⟩, -⟩ := h
  have hop : At buf 10 (TYPE_OP_ID :: id :: fieldsBytes fs) := hbody
  simp only [eluarpcGetRequestId, eluarpcMatchPacketStart_of_at hstart, Option.bind_eq_bind,
    Option.bind_some, eluarpcReadOpId_of_at hop, decide_true, ErrFlag.check_true,
    Option.pure_def]

/-- The size header of a packet. -/
theorem eluarpcGetPacketSize_of_at {buf : List UInt8} {n : Nat}
    (h : At buf 0 (packetHeader n)) :
    eluarpcGetPacketSize buf = some (n.toUInt16, ELUARPC_OK) := by
  rw [packetHeader] at h
  simp [eluarpcGetPacketSize, eluarpcReadExpect_of_at h,
    eluarpcReadU16_of_word (at_cons.mp h).2]

/-- **Packet round trip.**  For every format string and every argument list
that matches it, if the packet is at most 65535 bytes, `eluarpc_gen_read` with
the same format and operation ids on what `eluarpc_gen_write` has produced
returns `ELUARPC_OK` and the values of the arguments, every pointer
designating the written bytes inside the packet, and
`eluarpc_get_packet_size` reports the number of bytes written. -/
theorem eluarpc_round_trip {fmt : List Char} {ap : List VaArg} {fs : List Field}
    (hmatch : fields? fmt ap = some fs) (hsize : packetSize fs ≤ 65535)
    {mem : List UInt8} (hmem : packetSize fs ≤ mem.length)
    {ids : List UInt32} (hids : ids.map (·.toUInt8) = opIds fs) :
    ∃ packet buf vs size,
      eluarpcGenWrite mem fmt ap = some buf ∧
      buf = packet ++ mem.drop packet.length ∧
      eluarpcGenRead buf fmt ids = some (vs, ELUARPC_OK) ∧
      Designates buf packet.length fs vs ∧
      eluarpcGetPacketSize buf = some (size, ELUARPC_OK) ∧
      size.toNat = packet.length := by
  have hwrite := eluarpcGenWrite_eq hmatch hmem
  have hlen := packetBytes_length fs
  have hbuf : At (packetBytes fs ++ mem.drop (packetSize fs)) 0 (packetBytes fs) :=
    List.prefix_append _ _
  rw [packetBytes, at_append] at hbuf
  obtain ⟨hhdr, htail⟩ := hbuf
  obtain ⟨vs, hread, hd⟩ :=
    eluarpcGenRead_of_at (denotesAll_of_fields? hmatch) hids htail
  refine ⟨packetBytes fs, _, vs, (packetSize fs).toUInt16, hwrite, by rw [hlen], hread, ?_,
    eluarpcGetPacketSize_of_at hhdr, ?_⟩
  · rw [hlen]
    exact hd
  · rw [hlen]
    exact Nat.mod_eq_of_lt (by omega)

/-- The round trip of an `open` request for `/a` with flags -1 and mode 7. -/
theorem eluarpc_round_trip_open_request :
    ∃ packet buf vs size,
      eluarpcGenWrite (List.replicate 64 0xEE) ['o', 'p', 'i', 'i']
        [.int 1, .ptr (some [47, 97, 0]), .int 3, .int 0xFFFFFFFF, .int 7] = some buf ∧
      buf = packet ++ (List.replicate 64 0xEE).drop packet.length ∧
      eluarpcGenRead buf ['o', 'p', 'i', 'i'] [1] = some (vs, ELUARPC_OK) ∧
      Designates buf packet.length
        [.op 1, .ptr [47, 97, 0], .int32 0xFFFFFFFF, .int32 7] vs ∧
      eluarpcGetPacketSize buf = some (size, ELUARPC_OK) ∧
      size.toNat = packet.length :=
  eluarpc_round_trip (by decide) (by decide) (by decide) (by decide)

end Rpc
