import EluaWebServer.Rpc.RoundTrip

/-!
# How exact the packet decoder is

`eluarpc_gen_read` flags a wrong marker byte and goes on, moves its pointer by
the embedded lengths without looking at them, and never compares where it
ended with the size header.  So it stays inside a packet of `n` bytes exactly
when the lengths embedded in the fields keep its `extent` within `n`, and it
accepts exactly the encodings when moreover a packet with all markers right
has no bytes left over (`eluarpc_decoder_exact_iff`).
-/

namespace Rpc

open Buffer Word

/-- The byte at an offset, 0 beyond the buffer. -/
def byteAt (buf : List UInt8) (p : Nat) : UInt8 := buf.getD p 0

/-- The number of bytes of a field before its data. -/
def fieldHeader : Char → Nat
  | 'o' => 2
  | 'r' => 1
  | 'c' => 2
  | 'h' => 3
  | 'i' => 5
  | 'l' => 5
  | 'L' => 5
  | 'p' => 6
  | 'P' => 4
  | _ => 0

/-- The length embedded in the field at `p`. -/
def embeddedLength (buf : List UInt8) (c : Char) (p : Nat) : Nat :=
  match c with
  | 'p' => (ofBytes32 (byteAt buf (p + 2)) (byteAt buf (p + 3)) (byteAt buf (p + 4))
      (byteAt buf (p + 5))).toNat
  | 'P' => (ofBytes16 (byteAt buf (p + 2)) (byteAt buf (p + 3))).toNat
  | _ => 0

/-- Where the field of specifier `c` at `p` ends, going by its embedded
length. -/
def fieldEnd (buf : List UInt8) (c : Char) (p : Nat) : Nat :=
  p + fieldHeader c + embeddedLength buf c p

def fieldsEnd (buf : List UInt8) : List Char → Nat → Nat
  | [], p => p
  | c :: fmt, p => fieldsEnd buf fmt (fieldEnd buf c p)

/-- Where the end marker ends, going by the embedded lengths. -/
def extent (buf : List UInt8) (fmt : List Char) : Nat :=
  fieldsEnd buf fmt 10 + 6

/-- The fixed bytes that the field of specifier `c` starts with. -/
def fieldMarker (c : Char) (ids : List UInt32) : List UInt8 :=
  match c with
  | 'o' => [TYPE_OP_ID, (ids.headD 0).toUInt8]
  | 'r' => [ELUARPC_OP_RES_MOD ||| (ids.headD 0).toUInt8]
  | 'c' => [TYPE_INT_8]
  | 'h' => [TYPE_INT_16]
  | 'i' => [TYPE_INT_32]
  | 'l' => [TYPE_INT_32]
  | 'L' => [TYPE_INT_32]
  | 'p' => [TYPE_PTR, TYPE_INT_32]
  | 'P' => [TYPE_SMALL_PTR, TYPE_INT_16]
  | _ => []

/-- The `o` and `r` specifiers take an integer argument. -/
def takesId (c : Char) : Bool := c = 'o' || c = 'r'

/-- The integer arguments left after specifier `c`. -/
def idsAfter (c : Char) (ids : List UInt32) : List UInt32 :=
  if takesId c then ids.tail else ids

/-- Every field from `p` on starts with its fixed bytes, and the end marker
follows the last one. -/
def MarkersAt (buf : List UInt8) : List Char → List UInt32 → Nat → Prop
  | [], _, p => At buf p (TYPE_END :: TYPE_INT_32 :: bytes32 (~~~ PACKET_SIG))
  | c :: fmt, ids, p =>
      At buf p (fieldMarker c ids) ∧ MarkersAt buf fmt (idsAfter c ids) (fieldEnd buf c p)

/-- All fixed bytes of the packet are right. -/
def Markers (buf : List UInt8) (fmt : List Char) (ids : List UInt32) : Prop :=
  At buf 4 (TYPE_START :: TYPE_INT_32 :: bytes32 PACKET_SIG) ∧ MarkersAt buf fmt ids 10

/-! ## One field -/

theorem byteAt_of_at {buf : List UInt8} {p : Nat} {x : UInt8} {xs : List UInt8}
    (h : At buf p (x :: xs)) : byteAt buf p = x := by
  simp [byteAt, (at_cons.mp h).1]

/-- The fixed part of the field of specifier `c` at `p` lies in the buffer. -/
def HeaderFits (buf : List UInt8) (c : Char) (p : Nat) : Prop :=
  fieldHeader c = 0 ∨ p + fieldHeader c ≤ buf.length

theorem HeaderFits.exists_at {buf : List UInt8} {c : Char} {p : Nat}
    (h : HeaderFits buf c p) : ∃ xs, xs.length = fieldHeader c ∧ At buf p xs := by
  rcases h with h0 | hle
  · exact ⟨[], h0.symm, at_nil buf p⟩
  · exact ⟨slice buf p (fieldHeader c), slice_length hle, at_slice buf p _⟩

theorem lt_of_next {buf : List UInt8} {r r' : Reader} {b : UInt8}
    (h : r.next buf = some (b, r')) : r.p < buf.length ∧ r'.p = r.p + 1 := by
  simp only [Reader.next, Option.map_eq_some_iff, Prod.mk.injEq] at h
  obtain ⟨x, hx, rfl, rfl⟩ := h
  exact ⟨(List.getElem?_eq_some_iff.mp hx).1, rfl⟩

theorem lt_of_eluarpcReadExpect {buf : List UInt8} {r r' : Reader} {t : UInt8}
    (h : eluarpcReadExpect buf r t = some r') : r.p < buf.length ∧ r'.p = r.p + 1 := by
  simp only [eluarpcReadExpect, Option.bind_eq_bind, Option.bind_eq_some_iff, Prod.exists,
    Option.pure_def, Option.some.injEq] at h
  obtain ⟨b, r₁, h₁, rfl⟩ := h
  have := lt_of_next h₁
  split <;> exact this

theorem le_of_eluarpcReadU16 {buf : List UInt8} {r r' : Reader} {v : UInt16}
    (h : eluarpcReadU16 buf r = some (v, r')) : r.p + 3 ≤ buf.length := by
  simp only [eluarpcReadU16, Option.bind_eq_bind, Option.bind_eq_some_iff, Prod.exists] at h
  obtain ⟨r₁, h₁, b0, r₂, h₂, b1, r₃, h₃, -⟩ := h
  have := lt_of_eluarpcReadExpect h₁
  have := lt_of_next h₂
  have := lt_of_next h₃
  omega

theorem le_of_eluarpcReadU32 {buf : List UInt8} {r r' : Reader} {v : UInt32}
    (h : eluarpcReadU32 buf r = some (v, r')) : r.p + 5 ≤ buf.length := by
  simp only [eluarpcReadU32, Option.bind_eq_bind, Option.bind_eq_some_iff, Prod.exists] at h
  obtain ⟨r₁, h₁, b0, r₂, h₂, b1, r₃, h₃, b2, r₄, h₄, b3, r₅, h₅, -⟩ := h
  have := lt_of_eluarpcReadExpect h₁
  have := lt_of_next h₂
  have := lt_of_next h₃
  have := lt_of_next h₄
  have := lt_of_next h₅
  omega

/-- A field that was read without a fault has its fixed part in the buffer. -/
theorem headerFits_of_eluarpcReadField {buf : List UInt8} {r : Reader} {c : Char}
    {ids : List UInt32} {res : List Value × Reader × List UInt32}
    (h : eluarpcReadField buf r c ids = some res) : HeaderFits buf c r.p := by
  unfold HeaderFits
  unfold eluarpcReadField at h
  split at h
  case h_12 =>
      left
      cases ids <;> unfold fieldHeader <;> split <;> simp_all
  case h_3 => simp at h
  case h_4 => simp at h
  all_goals
    simp only [Option.map_eq_some_iff, Prod.exists] at h
  case h_1 =>
      obtain ⟨r', h, -⟩ := h
      simp only [eluarpcExpectOpId, Option.bind_eq_bind, Option.bind_eq_some_iff,
        Prod.exists] at h
      obtain ⟨r₁, h₁, b, r₂, h₂, -⟩ := h
      have := lt_of_eluarpcReadExpect h₁
      have := lt_of_next h₂
      right
      simp only [fieldHeader]
      omega
  case h_2 =>
      obtain ⟨r', h, -⟩ := h
      have := lt_of_eluarpcReadExpect h
      right
      simp only [fieldHeader]
      omega
  case h_5 =>
      obtain ⟨v, r', h, -⟩ := h
      simp only [eluarpcReadU8, Option.bind_eq_bind, Option.bind_eq_some_iff] at h
      obtain ⟨r₁, h₁, h₂⟩ := h
      have := lt_of_eluarpcReadExpect h₁
      have := lt_of_next h₂
      right
      simp only [fieldHeader]
      omega
  case h_6 =>
      obtain ⟨v, r', h, -⟩ := h
      exact .inr (le_of_eluarpcReadU16 h)
  case h_7 | h_8 | h_9 =>
      obtain ⟨v, r', h, -⟩ := h
      exact .inr (le_of_eluarpcReadU32 h)
  case h_10 =>
      obtain ⟨v, r', h, -⟩ := h
      simp only [eluarpcReadPtr, Option.bind_eq_bind, Option.bind_eq_some_iff, Prod.exists] at h
      obtain ⟨r₁, h₁, n, r₂, h₂, -⟩ := h
      have := lt_of_eluarpcReadExpect h₁
      have := le_of_eluarpcReadU32 h₂
      right
      simp only [fieldHeader]
      omega
  case h_11 =>
      obtain ⟨v, r', h, -⟩ := h
      simp only [eluarpcReadSmallPtr, Option.bind_eq_bind, Option.bind_eq_some_iff,
        Prod.exists] at h
      obtain ⟨r₁, h₁, n, r₂, h₂, -⟩ := h
      have := lt_of_eluarpcReadExpect h₁
      have := le_of_eluarpcReadU16 h₂
      right
      simp only [fieldHeader]
      omega

theorem exists_of_length_five {xs : List UInt8} (h : xs.length = 5) :
    ∃ a b c d e, xs = [a, b, c, d, e] := by
  obtain ⟨a, xs, rfl⟩ := List.exists_cons_of_length_eq_add_one h
  obtain ⟨b, c, d, e, rfl⟩ := List.length_eq_four.mp (Nat.succ.inj h)
  exact ⟨a, b, c, d, e, rfl⟩

theorem exists_of_length_six {xs : List UInt8} (h : xs.length = 6) :
    ∃ a b c d e f, xs = [a, b, c, d, e, f] := by
  obtain ⟨a, xs, rfl⟩ := List.exists_cons_of_length_eq_add_one h
  obtain ⟨b, c, d, e, f, rfl⟩ := exists_of_length_five (Nat.succ.inj h)
  exact ⟨a, b, c, d, e, f, rfl⟩

/-- **One round of the reader** on any bytes: when the fixed part of the field
lies in the buffer the pointer moves to the end of the field, and the flag is
kept exactly when the fixed bytes are right. -/
theorem eluarpcReadField_eq {buf : List UInt8} {p : Nat} {c : Char} {ids : List UInt32}
    (hp : HeaderFits buf c p) (hids : takesId c = true → ids ≠ []) (e : ErrFlag) :
    ∃ vs e', eluarpcReadField buf ⟨p, e⟩ c ids =
        some (vs, ⟨fieldEnd buf c p, e'⟩, idsAfter c ids) ∧
      (e' = ELUARPC_OK ↔ e = ELUARPC_OK ∧ At buf p (fieldMarker c ids)) := by
  obtain ⟨xs, hlen, hat⟩ := hp.exists_at
  unfold fieldHeader at hlen
  split at hlen
  case h_1 =>
      obtain ⟨a, b, rfl⟩ := List.length_eq_two.mp hlen
      cases ids with
      | nil => exact absurd rfl (hids rfl)
      | cons id ids =>
          refine ⟨[], e.check (a = TYPE_OP_ID && b = id.toUInt8), ?_, ?_⟩
          · simp [eluarpcReadField, eluarpcExpectOpId_of_at hat, fieldEnd, fieldHeader,
              embeddedLength, idsAfter, takesId]
          · have hb := (at_cons.mp hat).2
            simp [ErrFlag.check_eq_ok, fieldMarker, at_cons, at_nil, (at_cons.mp hat).1,
              (at_cons.mp hb).1]
  case h_2 =>
      obtain ⟨a, rfl⟩ := List.length_eq_one_iff.mp hlen
      cases ids with
      | nil => exact absurd rfl (hids rfl)
      | cons id ids =>
          refine ⟨[], e.check (a = ELUARPC_OP_RES_MOD ||| id.toUInt8), ?_, ?_⟩
          · simp [eluarpcReadField, eluarpcReadExpect_of_at hat, fieldEnd, fieldHeader,
              embeddedLength, idsAfter, takesId]
          · simp [ErrFlag.check_eq_ok, fieldMarker, at_cons, at_nil, (at_cons.mp hat).1]
  case h_3 =>
      obtain ⟨a, b, rfl⟩ := List.length_eq_two.mp hlen
      refine ⟨[.u8 b], e.check (a = TYPE_INT_8), ?_, ?_⟩
      · simp [eluarpcReadField, eluarpcReadU8_of_at hat, fieldEnd, fieldHeader,
          embeddedLength, idsAfter, takesId]
      · simp [ErrFlag.check_eq_ok, fieldMarker, at_cons, at_nil, (at_cons.mp hat).1]
  case h_4 =>
      obtain ⟨a, b0, b1, rfl⟩ := List.length_eq_three.mp hlen
      refine ⟨[.u16 (ofBytes16 b0 b1)], e.check (a = TYPE_INT_16), ?_, ?_⟩
      · simp [eluarpcReadField, eluarpcReadU16_of_at hat, fieldEnd, fieldHeader,
          embeddedLength, idsAfter, takesId]
      · simp [ErrFlag.check_eq_ok, fieldMarker, at_cons, at_nil, (at_cons.mp hat).1]
  case h_5 | h_6 | h_7 =>
      obtain ⟨a, b0, b1, b2, b3, rfl⟩ := exists_of_length_five hlen
      refine ⟨[.u32 (ofBytes32 b0 b1 b2 b3)], e.check (a = TYPE_INT_32), ?_, ?_⟩
      · simp [eluarpcReadField, eluarpcReadU32_of_at hat, fieldEnd, fieldHeader,
          embeddedLength, idsAfter, takesId]
      · simp [ErrFlag.check_eq_ok, fieldMarker, at_cons, at_nil, (at_cons.mp hat).1]
  case h_8 =>
      obtain ⟨s, t, b0, b1, b2, b3, rfl⟩ := exists_of_length_six hlen
      have h1 := (at_cons.mp hat).2
      have h2 := (at_cons.mp h1).2
      have h3 := (at_cons.mp h2).2
      have h4 := (at_cons.mp h3).2
      have h5 := (at_cons.mp h4).2
      have hn : embeddedLength buf 'p' p = (ofBytes32 b0 b1 b2 b3).toNat := by
        simp only [embeddedLength, byteAt_of_at h2, byteAt_of_at h3, byteAt_of_at h4,
          byteAt_of_at h5]
      refine ⟨[.ptr (if p + 6 + (ofBytes32 b0 b1 b2 b3).toNat = p + ELUARPC_PTR_HEADER_SIZE
          then none else some (p + ELUARPC_PTR_HEADER_SIZE)) (ofBytes32 b0 b1 b2 b3)],
        e.check (s = TYPE_PTR && t = TYPE_INT_32), ?_, ?_⟩
      · simp only [eluarpcReadField, eluarpcReadPtr_of_at hat, Option.map_some, fieldEnd,
          fieldHeader, hn]
        rfl
      · simp [ErrFlag.check_eq_ok, fieldMarker, at_cons, at_nil, (at_cons.mp hat).1,
          (at_cons.mp h1).1]
  case h_9 =>
      obtain ⟨s, t, b0, b1, rfl⟩ := List.length_eq_four.mp hlen
      have h1 := (at_cons.mp hat).2
      have h2 := (at_cons.mp h1).2
      have h3 := (at_cons.mp h2).2
      have hn : embeddedLength buf 'P' p = (ofBytes16 b0 b1).toNat := by
        simp only [embeddedLength, byteAt_of_at h2, byteAt_of_at h3]
      refine ⟨[.smallPtr (if p + 4 + (ofBytes16 b0 b1).toNat =
          p + ELUARPC_SMALL_PTR_HEADER_SIZE
          then none else some (p + ELUARPC_SMALL_PTR_HEADER_SIZE)) (ofBytes16 b0 b1)],
        e.check (s = TYPE_SMALL_PTR && t = TYPE_INT_16), ?_, ?_⟩
      · simp only [eluarpcReadField, eluarpcReadSmallPtr_of_at hat, Option.map_some,
          fieldEnd, fieldHeader, hn]
        rfl
      · simp [ErrFlag.check_eq_ok, fieldMarker, at_cons, at_nil, (at_cons.mp hat).1,
          (at_cons.mp h1).1]
  case h_10 ho hr hc hh hi hl hL hp' hP =>
      have hids' : idsAfter c ids = ids := by simp_all [idsAfter, takesId]
      have hmark : fieldMarker c ids = [] := by
        unfold fieldMarker
        split <;> first | rfl | contradiction
      have hend : fieldEnd buf c p = p := by
        unfold fieldEnd fieldHeader embeddedLength
        split <;> split <;> first | rfl | contradiction
      refine ⟨[], e, ?_, by simp [hmark, at_nil]⟩
      rw [hids', hend]
      unfold eluarpcReadField
      split <;> first | rfl | contradiction

theorem le_fieldEnd (buf : List UInt8) (c : Char) (p : Nat) :
    p + fieldHeader c ≤ fieldEnd buf c p := by
  unfold fieldEnd
  omega

theorem le_fieldsEnd (buf : List UInt8) (fmt : List Char) (p : Nat) :
    p ≤ fieldsEnd buf fmt p := by
  induction fmt generalizing p with
  | nil => exact Nat.le_refl p
  | cons c fmt ih =>
      have h := le_fieldEnd buf c p
      exact Nat.le_trans (by omega) (ih (fieldEnd buf c p))

/-- The number of integer arguments that a format takes. -/
def idCount (fmt : List Char) : Nat := fmt.countP takesId

theorem idCount_cons {c : Char} {fmt : List Char} {ids : List UInt32}
    (h : ids.length = idCount (c :: fmt)) :
    (takesId c = true → ids ≠ []) ∧ (idsAfter c ids).length = idCount fmt := by
  unfold idCount at *
  rw [List.countP_cons] at h
  unfold idsAfter
  cases hc : takesId c with
  | false =>
      rw [hc] at h
      exact ⟨fun hf => by simp at hf, by simpa using h⟩
  | true =>
      simp only [hc, if_true] at h
      refine ⟨fun _ hnil => ?_, ?_⟩
      · rw [hnil] at h
        simp at h
      · simp only [if_true, List.length_tail]
        omega

/-- **The reader's loop, forwards**: when the fields and an end marker lie in
the buffer going by the embedded lengths, nothing is read outside it. -/
theorem eluarpcReadFields_eq {buf : List UInt8} {p : Nat} {fmt : List Char}
    {ids : List UInt32} (hp : fieldsEnd buf fmt p ≤ buf.length)
    (hids : ids.length = idCount fmt) (e : ErrFlag) :
    ∃ vs e', eluarpcReadFields buf ⟨p, e⟩ fmt ids =
      some (vs, ⟨fieldsEnd buf fmt p, e'⟩) := by
  induction fmt generalizing p ids e with
  | nil => exact ⟨[], e, rfl⟩
  | cons c fmt ih =>
      have hcons := idCount_cons hids
      have hle := Nat.le_trans (le_fieldEnd buf c p) (le_fieldsEnd buf fmt _)
      obtain ⟨vs, e₁, h₁, -⟩ := eluarpcReadField_eq (.inr (Nat.le_trans hle hp)) hcons.1 e
      obtain ⟨vs', e₂, h₂⟩ := ih hp hcons.2 e₁
      refine ⟨vs ++ vs', e₂, ?_⟩
      simp only [eluarpcReadFields, h₁, Option.bind_eq_bind, Option.bind_some, h₂]
      rfl

/-- **The reader's loop, backwards**: where a run without a fault has ended,
and what it has checked when the flag is still clear. -/
theorem eluarpcReadFields_inv {buf : List UInt8} {p : Nat} {fmt : List Char}
    {ids : List UInt32} {vs : List Value} {r : Reader} {e : ErrFlag}
    (h : eluarpcReadFields buf ⟨p, e⟩ fmt ids = some (vs, r))
    (hids : ids.length = idCount fmt) :
    r.p = fieldsEnd buf fmt p ∧
      (r.err = ELUARPC_OK →
        At buf r.p (TYPE_END :: TYPE_INT_32 :: bytes32 (~~~ PACKET_SIG)) →
        e = ELUARPC_OK ∧ MarkersAt buf fmt ids p) := by
  induction fmt generalizing p ids vs e with
  | nil =>
      simp only [eluarpcReadFields, Option.some.injEq, Prod.mk.injEq] at h
      obtain ⟨-, rfl⟩ := h
      exact ⟨rfl, fun he hend => ⟨he, hend⟩⟩
  | cons c fmt ih =>
      have hcons := idCount_cons hids
      simp only [eluarpcReadFields, Option.bind_eq_bind, Option.bind_eq_some_iff,
        Prod.exists] at h
      obtain ⟨vs₁, r₁, ids₁, h₁, vs₂, r₂, h₂, h₃⟩ := h
      simp only [Option.pure_def, Option.some.injEq, Prod.mk.injEq] at h₃
      obtain ⟨-, rfl⟩ := h₃
      obtain ⟨vs', e', heq, hflag⟩ :=
        eluarpcReadField_eq (headerFits_of_eluarpcReadField h₁) hcons.1 e
      rw [heq] at h₁
      simp only [Option.some.injEq, Prod.mk.injEq] at h₁
      obtain ⟨rfl, rfl, rfl⟩ := h₁
      obtain ⟨hp, hok⟩ := ih h₂ hcons.2
      refine ⟨hp, fun hr hend => ?_⟩
      obtain ⟨he', htail⟩ := hok hr hend
      obtain ⟨he, hhead⟩ := hflag.mp he'
      exact ⟨he, hhead, htail⟩

/-! ## Packets whose markers are right -/

/-- A field with the right fixed bytes is the layout of some field of its
specifier. -/
theorem exists_field_of_marker {buf : List UInt8} {p : Nat} {c : Char} {ids : List UInt32}
    (hm : At buf p (fieldMarker c ids)) (hp : fieldEnd buf c p ≤ buf.length) :
    ∃ f, Denotes c f ∧ opIds f = (if takesId c then [(ids.headD 0).toUInt8] else []) ∧
      At buf p (fieldsBytes f) ∧ fieldEnd buf c p = p + (fieldsBytes f).length := by
  have hfits : HeaderFits buf c p := .inr (Nat.le_trans (le_fieldEnd buf c p) hp)
  obtain ⟨xs, hlen, hat⟩ := hfits.exists_at
  unfold fieldMarker at hm
  split at hm
  case h_1 => exact ⟨[.op _], .op _, rfl, hm, rfl⟩
  case h_2 => exact ⟨[.response _], .response _, rfl, hm, rfl⟩
  case h_3 =>
      obtain ⟨a, b, rfl⟩ := List.length_eq_two.mp hlen
      obtain rfl : a = TYPE_INT_8 :=
        Option.some.inj ((at_cons.mp hat).1.symm.trans (at_cons.mp hm).1)
      exact ⟨[.int8 b], .int8 b, rfl, hat, rfl⟩
  case h_4 =>
      obtain ⟨a, b0, b1, rfl⟩ := List.length_eq_three.mp hlen
      obtain rfl : a = TYPE_INT_16 :=
        Option.some.inj ((at_cons.mp hat).1.symm.trans (at_cons.mp hm).1)
      refine ⟨[.int16 (ofBytes16 b0 b1)], .int16 _, rfl, ?_, rfl⟩
      simpa [fieldsBytes_singleton, Field.bytes, bytes16_ofBytes16] using hat
  case h_5 | h_6 | h_7 =>
      obtain ⟨a, b0, b1, b2, b3, rfl⟩ := exists_of_length_five hlen
      obtain rfl : a = TYPE_INT_32 :=
        Option.some.inj ((at_cons.mp hat).1.symm.trans (at_cons.mp hm).1)
      refine ⟨[.int32 (ofBytes32 b0 b1 b2 b3)], .int32 _ _ (by simp), rfl, ?_, rfl⟩
      simpa [fieldsBytes_singleton, Field.bytes, bytes32_ofBytes32] using hat
  case h_8 =>
      obtain ⟨s, t, b0, b1, b2, b3, rfl⟩ := exists_of_length_six hlen
      obtain rfl : s = TYPE_PTR :=
        Option.some.inj ((at_cons.mp hat).1.symm.trans (at_cons.mp hm).1)
      have h1 := (at_cons.mp hat).2
      obtain rfl : t = TYPE_INT_32 :=
        Option.some.inj ((at_cons.mp h1).1.symm.trans (at_cons.mp (at_cons.mp hm).2).1)
      have h2 := (at_cons.mp h1).2
      have h3 := (at_cons.mp h2).2
      have h4 := (at_cons.mp h3).2
      have h5 := (at_cons.mp h4).2
      have hn : embeddedLength buf 'p' p = (ofBytes32 b0 b1 b2 b3).toNat := by
        simp only [embeddedLength, byteAt_of_at h2, byteAt_of_at h3, byteAt_of_at h4,
          byteAt_of_at h5]
      have hend : fieldEnd buf 'p' p = p + 6 + (ofBytes32 b0 b1 b2 b3).toNat := by
        rw [fieldEnd, hn, fieldHeader]
      rw [hend] at hp
      have hd : (slice buf (p + 6) (ofBytes32 b0 b1 b2 b3).toNat).length =
          (ofBytes32 b0 b1 b2 b3).toNat := slice_length hp
      have hword : (slice buf (p + 6) (ofBytes32 b0 b1 b2 b3).toNat).length.toUInt32 =
          ofBytes32 b0 b1 b2 b3 := by
        rw [hd]
        exact UInt32.ofNat_toNat
      refine ⟨[.ptr (slice buf (p + 6) (ofBytes32 b0 b1 b2 b3).toNat)],
        .ptr _ (by rw [hd]; exact UInt32.toNat_lt _), rfl, ?_, ?_⟩
      · rw [fieldsBytes_singleton, Field.bytes, hword, bytes32_ofBytes32]
        exact at_append.mpr ⟨hat, at_slice _ _ _⟩
      · rw [hend, fieldsBytes_singleton, Field.bytes, List.length_append, hd]
        simp
        omega
  case h_9 =>
      obtain ⟨s, t, b0, b1, rfl⟩ := List.length_eq_four.mp hlen
      obtain rfl : s = TYPE_SMALL_PTR :=
        Option.some.inj ((at_cons.mp hat).1.symm.trans (at_cons.mp hm).1)
      have h1 := (at_cons.mp hat).2
      obtain rfl : t = TYPE_INT_16 :=
        Option.some.inj ((at_cons.mp h1).1.symm.trans (at_cons.mp (at_cons.mp hm).2).1)
      have h2 := (at_cons.mp h1).2
      have h3 := (at_cons.mp h2).2
      have hn : embeddedLength buf 'P' p = (ofBytes16 b0 b1).toNat := by
        simp only [embeddedLength, byteAt_of_at h2, byteAt_of_at h3]
      have hend : fieldEnd buf 'P' p = p + 4 + (ofBytes16 b0 b1).toNat := by
        rw [fieldEnd, hn, fieldHeader]
      rw [hend] at hp
      have hd : (slice buf (p + 4) (ofBytes16 b0 b1).toNat).length =
          (ofBytes16 b0 b1).toNat := slice_length hp
      have hword : (slice buf (p + 4) (ofBytes16 b0 b1).toNat).length.toUInt16 =
          ofBytes16 b0 b1 := by
        rw [hd]
        exact UInt16.ofNat_toNat
      refine ⟨[.smallPtr (slice buf (p + 4) (ofBytes16 b0 b1).toNat)],
        .smallPtr _ (by rw [hd]; exact UInt16.toNat_lt _), rfl, ?_, ?_⟩
      · rw [fieldsBytes_singleton, Field.bytes, hword, bytes16_ofBytes16]
        exact at_append.mpr ⟨hat, at_slice _ _ _⟩
      · rw [hend, fieldsBytes_singleton, Field.bytes, List.length_append, hd]
        simp
        omega
  case h_10 ho hr hc hh hi hl hL hp' hP =>
      have hspec : c ∉ ['o', 'r', 'c', 'h', 'i', 'l', 'L', 'p', 'P'] := by
        simp only [List.mem_cons, List.not_mem_nil, or_false, not_or]
        exact ⟨ho, hr, hc, hh, hi, hl, hL, hp', hP⟩
      have hid : takesId c = false := by
        simp only [takesId, Bool.or_eq_false_iff, decide_eq_false_iff_not]
        exact ⟨ho, hr⟩
      refine ⟨[], .other c hspec, by rw [hid]; rfl, at_nil _ _, ?_⟩
      unfold fieldEnd fieldHeader embeddedLength
      split <;> split <;> first | rfl | contradiction

/-- A run of fields with the right fixed bytes is the layout of fields that
the format denotes. -/
theorem exists_fields_of_markers {buf : List UInt8} {p : Nat} {fmt : List Char}
    {ids : List UInt32} (hm : MarkersAt buf fmt ids p) (hids : ids.length = idCount fmt)
    (hp : fieldsEnd buf fmt p ≤ buf.length) :
    ∃ fs, DenotesAll fmt fs ∧ ids.map (·.toUInt8) = opIds fs ∧ At buf p (fieldsBytes fs) ∧
      fieldsEnd buf fmt p = p + (fieldsBytes fs).length ∧
      At buf (fieldsEnd buf fmt p) (TYPE_END :: TYPE_INT_32 :: bytes32 (~~~ PACKET_SIG)) := by
  induction fmt generalizing p ids with
  | nil =>
      refine ⟨[], .nil, ?_, at_nil _ _, rfl, hm⟩
      have hnil : ids = [] := List.eq_nil_of_length_eq_zero hids
      rw [hnil]
      rfl
  | cons c fmt ih =>
      have hcons := idCount_cons hids
      obtain ⟨hhead, htail⟩ := hm
      obtain ⟨f, hf, hop, hat, hend⟩ :=
        exists_field_of_marker hhead (Nat.le_trans (le_fieldsEnd buf fmt _) hp)
      obtain ⟨fs, hfs, hops, hats, hends, hmark⟩ := ih htail hcons.2 hp
      refine ⟨f ++ fs, .cons hf hfs, ?_, ?_, ?_, hmark⟩
      · rw [opIds_append_of_denotes hf, hop, ← hops]
        cases hc : takesId c with
        | false => simp [idsAfter, hc]
        | true =>
            cases ids with
            | nil => exact absurd rfl (hcons.1 hc)
            | cons id ids => simp [idsAfter, hc]
      · rw [fieldsBytes_append, at_append, ← hend]
        exact ⟨hat, hats⟩
      · rw [fieldsEnd, hends, hend, fieldsBytes_append, List.length_append, Nat.add_assoc]

/-! ## Encoding the decoded values again -/

/-- The specifiers that store a value. -/
def takesValue (c : Char) : Bool := c ∈ ['c', 'h', 'i', 'l', 'L', 'p', 'P']

/-- The arguments that write a decoded value again. -/
def Value.args (buf : List UInt8) : Value → List VaArg
  | .u8 v => [.int v.toUInt32]
  | .u16 v => [.int v.toUInt32]
  | .u32 v => [.int v]
  | .ptr off n => [.ptr (off.map fun o => slice buf o n.toNat), .int n]
  | .smallPtr off n => [.ptr (off.map fun o => slice buf o n.toNat), .int n.toUInt32]

/-- The arguments of `eluarpc_gen_write` that encode the decoded values under
the same format and operation ids. -/
def reencodeArgs (buf : List UInt8) : List Char → List UInt32 → List Value → List VaArg
  | [], _, _ => []
  | c :: fmt, ids, vs =>
      if takesId c then .int (ids.headD 0) :: reencodeArgs buf fmt ids.tail vs
      else if takesValue c then
        match vs with
        | [] => []
        | v :: vs => v.args buf ++ reencodeArgs buf fmt ids vs
      else reencodeArgs buf fmt ids vs

theorem fields?_reencodeArgs {buf : List UInt8} {lim : Nat} {fmt : List Char}
    {fs : List Field} (hfs : DenotesAll fmt fs) {ids : List UInt32}
    (hids : ids.map (·.toUInt8) = opIds fs) {vs : List Value}
    (hvs : Designates buf lim fs vs) :
    fields? fmt (reencodeArgs buf fmt ids vs) = some fs := by
  induction hfs generalizing ids vs with
  | nil => rfl
  | @cons c fmt f fs head tail ih =>
      cases head with
      | op id =>
          obtain ⟨i, ids, rfl, hi, hids⟩ := List.map_eq_cons_iff.mp hids
          simp [reencodeArgs, takesId, fields?, field?, hi, ih hids hvs]
      | response id =>
          obtain ⟨i, ids, rfl, hi, hids⟩ := List.map_eq_cons_iff.mp hids
          simp [reencodeArgs, takesId, fields?, field?, hi, ih hids hvs]
      | int8 v =>
          obtain ⟨vs, rfl, htail⟩ := hvs.u8
          simp [reencodeArgs, takesId, takesValue, Value.args, fields?, field?, ih hids htail]
      | int16 v =>
          obtain ⟨vs, rfl, htail⟩ := hvs.u16
          simp [reencodeArgs, takesId, takesValue, Value.args, fields?, field?, ih hids htail]
      | int32 c v hc =>
          obtain ⟨vs, rfl, htail⟩ := hvs.u32
          rcases hc with rfl | rfl | rfl <;>
            simp [reencodeArgs, takesId, takesValue, Value.args, fields?, field?, ih hids htail]
      | ptr d hd =>
          obtain ⟨off, n, vs, rfl, hoff, hn, htail⟩ := hvs.ptr
          have hsrc := hoff.getD_slice
          simp [reencodeArgs, takesId, takesValue, Value.args, fields?, field?, ih hids htail,
            hsrc, hn]
      | smallPtr d hd =>
          obtain ⟨off, n, vs, rfl, hoff, hn, htail⟩ := hvs.smallPtr
          have hsrc := hoff.getD_slice
          simp [reencodeArgs, takesId, takesValue, Value.args, fields?, field?, ih hids htail,
            hsrc, hn]
      | other c hc =>
          have hid : takesId c = false := by simp_all [takesId]
          have hval : takesValue c = false := by simp_all [takesValue]
          have hfield : ∀ ap, field? c ap = some ([], ap) := by
            intro ap
            unfold field?
            split <;> simp_all
          simp [reencodeArgs, hid, hval, fields?, hfield, ih hids hvs]

/-! ## Exactness -/

/-- A decoded pointer with its length lies inside the first `n` bytes. -/
def Value.Inside (n : Nat) : Value → Prop
  | .ptr (some o) len => o + len.toNat ≤ n
  | .smallPtr (some o) len => o + len.toNat ≤ n
  | _ => True

/-- The decoder is exact and bounded on a packet: it reads no byte outside it,
and it returns `ELUARPC_OK` only if encoding the returned values again under
the same format produces exactly the packet, whatever was in the buffer
before, with every returned pointer inside the packet. -/
def ExactAndBounded (fmt : List Char) (ids : List UInt32) (buf : List UInt8) : Prop :=
  ∃ vs e, eluarpcGenRead buf fmt ids = some (vs, e) ∧
    (e = ELUARPC_OK →
      (∀ mem, mem.length = buf.length →
        eluarpcGenWrite mem fmt (reencodeArgs buf fmt ids vs) = some buf) ∧
      ∀ v ∈ vs, v.Inside buf.length)

theorem Designates.inside {buf : List UInt8} {lim : Nat} {fmt : List Char}
    {fs : List Field} (hfs : DenotesAll fmt fs) {vs : List Value}
    (hvs : Designates buf lim fs vs) : ∀ v ∈ vs, v.Inside lim := by
  induction hfs generalizing vs with
  | nil =>
      have hnil : vs = [] := hvs
      simp [hnil]
  | @cons c fmt f fs head tail ih =>
      cases head with
      | op id => exact ih hvs
      | response id => exact ih hvs
      | other c hc => exact ih hvs
      | int8 v =>
          obtain ⟨vs, rfl, htail⟩ := hvs.u8
          simpa [Value.Inside] using ih htail
      | int16 v =>
          obtain ⟨vs, rfl, htail⟩ := hvs.u16
          simpa [Value.Inside] using ih htail
      | int32 c v hc =>
          obtain ⟨vs, rfl, htail⟩ := hvs.u32
          simpa [Value.Inside] using ih htail
      | ptr d hd =>
          obtain ⟨off, n, vs, rfl, hoff, hn, htail⟩ := hvs.ptr
          refine List.forall_mem_cons.mpr ⟨?_, ih htail⟩
          cases off with
          | none => trivial
          | some o =>
              rw [Value.Inside, hn]
              exact hoff.2.2
      | smallPtr d hd =>
          obtain ⟨off, n, vs, rfl, hoff, hn, htail⟩ := hvs.smallPtr
          refine List.forall_mem_cons.mpr ⟨?_, ih htail⟩
          cases off with
          | none => trivial
          | some o =>
              rw [Value.Inside, hn]
              exact hoff.2.2

/-- Reading an expected marker byte and an expected word after it. -/
def expectWord (buf : List UInt8) (r : Reader) (t : UInt8) (w : UInt32) : Option Reader := do
  let r ← eluarpcReadExpect buf r t
  let (fdata, r) ← eluarpcReadU32 buf r
  return if fdata ≠ w then { r with err := ELUARPC_ERR } else r

theorem le_of_expectWord {buf : List UInt8} {r r' : Reader} {t : UInt8} {w : UInt32}
    (h : expectWord buf r t w = some r') : r.p + 6 ≤ buf.length := by
  simp only [expectWord, Option.bind_eq_bind, Option.bind_eq_some_iff, Prod.exists] at h
  obtain ⟨r₁, h₁, v, r₂, h₂, -⟩ := h
  have := lt_of_eluarpcReadExpect h₁
  have := le_of_eluarpcReadU32 h₂
  omega

theorem expectWord_eq {buf : List UInt8} {p : Nat} (hp : p + 6 ≤ buf.length) (e : ErrFlag)
    (t : UInt8) (w : UInt32) :
    ∃ e', expectWord buf ⟨p, e⟩ t w = some ⟨p + 6, e'⟩ ∧
      (e' = ELUARPC_OK ↔ e = ELUARPC_OK ∧ At buf p (t :: TYPE_INT_32 :: bytes32 w)) := by
  have hat := at_slice buf p 6
  have hlen : (slice buf p 6).length = 6 := slice_length hp
  match hs : slice buf p 6, hlen with
  | [a, s, b0, b1, b2, b3], _ =>
      rw [hs] at hat
      have h1 := (at_cons.mp hat).2
      have h2 := (at_cons.mp h1).2
      refine ⟨((e.check (a = t)).check (s = TYPE_INT_32)).check (ofBytes32 b0 b1 b2 b3 = w),
        ?_, ?_⟩
      · simp only [expectWord, eluarpcReadExpect_of_at hat, eluarpcReadU32_of_at h1,
          Option.bind_eq_bind, Option.bind_some, Option.pure_def]
        by_cases hw : ofBytes32 b0 b1 b2 b3 = w <;> simp [hw, ErrFlag.check]
      · have hword : At buf (p + 2) (bytes32 w) ↔ ofBytes32 b0 b1 b2 b3 = w := by
          have hb : At buf (p + 2) (bytes32 (ofBytes32 b0 b1 b2 b3)) := by
            rw [bytes32_ofBytes32]
            exact h2
          constructor
          · intro hw
            have heq : bytes32 w = bytes32 (ofBytes32 b0 b1 b2 b3) :=
              (slice_of_at hw).symm.trans (slice_of_at hb)
            have := congrArg (fun l => ofBytes32 (l.getD 0 0) (l.getD 1 0) (l.getD 2 0)
              (l.getD 3 0)) heq
            exact ((ofBytes32_bytes32 w).symm.trans (this.trans (ofBytes32_bytes32 _))).symm
          · intro hw
            exact hw ▸ hb
        simp only [ErrFlag.check_eq_ok, decide_eq_true_eq, at_cons, (at_cons.mp hat).1,
          (at_cons.mp h1).1, hword, Option.some.injEq, and_assoc]

theorem eluarpcMatchPacketStart_eq_expectWord (buf : List UInt8) (e : ErrFlag) :
    eluarpcMatchPacketStart buf ⟨0, e⟩ = expectWord buf ⟨4, e⟩ TYPE_START PACKET_SIG :=
  rfl

theorem eluarpcMatchPacketEnd_eq_expectWord (buf : List UInt8) (r : Reader) :
    eluarpcMatchPacketEnd buf r = expectWord buf r TYPE_END (~~~ PACKET_SIG) :=
  rfl

/-- A run of the decoder without a fault: how far it has read, and what it has
checked when it returns `ELUARPC_OK`. -/
theorem eluarpcGenRead_inv {buf : List UInt8} {fmt : List Char} {ids : List UInt32}
    {vs : List Value} {e : ErrFlag} (hids : ids.length = idCount fmt)
    (h : eluarpcGenRead buf fmt ids = some (vs, e)) :
    extent buf fmt ≤ buf.length ∧ (e = ELUARPC_OK → Markers buf fmt ids) := by
  simp only [eluarpcGenRead, Option.bind_eq_bind, Option.bind_eq_some_iff, Prod.exists] at h
  obtain ⟨r₁, h₁, vs', r₂, h₂, r₃, h₃, h₄⟩ := h
  simp only [Option.pure_def, Option.some.injEq, Prod.mk.injEq] at h₄
  obtain ⟨-, rfl⟩ := h₄
  rw [eluarpcMatchPacketStart_eq_expectWord] at h₁
  rw [eluarpcMatchPacketEnd_eq_expectWord] at h₃
  obtain ⟨e₁, hstart, hok₁⟩ :=
    expectWord_eq (le_of_expectWord h₁) ELUARPC_OK TYPE_START PACKET_SIG
  rw [hstart, Option.some.injEq] at h₁
  subst h₁
  obtain ⟨hp, hfields⟩ := eluarpcReadFields_inv h₂ hids
  have hend := le_of_expectWord h₃
  obtain ⟨e₃, hmatch, hok₃⟩ := expectWord_eq hend r₂.err TYPE_END (~~~ PACKET_SIG)
  rw [hmatch, Option.some.injEq] at h₃
  subst h₃
  refine ⟨?_, fun he => ?_⟩
  · rw [extent]
    rw [hp] at hend
    exact hend
  · obtain ⟨he₂, hat⟩ := hok₃.mp he
    obtain ⟨he₁, hmarks⟩ := hfields he₂ hat
    exact ⟨(hok₁.mp he₁).2, hmarks⟩

/-- Inside its extent the decoder runs without a fault. -/
theorem eluarpcGenRead_of_extent {buf : List UInt8} {fmt : List Char} {ids : List UInt32}
    (hids : ids.length = idCount fmt) (h : extent buf fmt ≤ buf.length) :
    ∃ vs e, eluarpcGenRead buf fmt ids = some (vs, e) := by
  unfold extent at h
  have hstart : 10 ≤ fieldsEnd buf fmt 10 := le_fieldsEnd buf fmt 10
  have h10 : 4 + 6 ≤ buf.length := by omega
  obtain ⟨e₁, h₁, -⟩ := expectWord_eq h10 ELUARPC_OK TYPE_START PACKET_SIG
  obtain ⟨vs, e₂, h₂⟩ :=
    eluarpcReadFields_eq (p := 10) (Nat.le_trans (Nat.le_add_right _ 6) h) hids e₁
  obtain ⟨e₃, h₃, -⟩ := expectWord_eq h e₂ TYPE_END (~~~ PACKET_SIG)
  refine ⟨vs, e₃, ?_⟩
  simp only [eluarpcGenRead, eluarpcMatchPacketStart_eq_expectWord,
    eluarpcMatchPacketEnd_eq_expectWord, h₁, h₂, h₃, Option.bind_eq_bind, Option.bind_some,
    Option.pure_def]

/-- With all markers right the decoder accepts, and encoding again writes the
packet of the fields it has read. -/
theorem exists_fields_of_markers_of_extent {buf : List UInt8} {fmt : List Char}
    {ids : List UInt32} (hids : ids.length = idCount fmt)
    (hfit : extent buf fmt ≤ buf.length) (hm : Markers buf fmt ids) :
    ∃ fs vs, eluarpcGenRead buf fmt ids = some (vs, ELUARPC_OK) ∧
      fields? fmt (reencodeArgs buf fmt ids vs) = some fs ∧
      At buf 4 (packetTail fs) ∧ packetSize fs = extent buf fmt ∧
      ∀ v ∈ vs, v.Inside (extent buf fmt) := by
  unfold extent at hfit
  obtain ⟨hstart, hmarks⟩ := hm
  obtain ⟨fs, hfs, hops, hat, hend, hmark⟩ :=
    exists_fields_of_markers hmarks hids (by omega)
  have htail : At buf 4 (packetTail fs) := by
    have hlen : (TYPE_START :: TYPE_INT_32 :: bytes32 PACKET_SIG).length = 6 := rfl
    rw [packetTail, at_append, at_append, List.length_append, hlen]
    refine ⟨⟨hstart, hat⟩, ?_⟩
    rw [hend] at hmark
    rwa [show 4 + (6 + (fieldsBytes fs).length) = 10 + (fieldsBytes fs).length by omega]
  have hsize : packetSize fs = extent buf fmt := by
    unfold packetSize extent
    omega
  obtain ⟨vs, hread, hvs⟩ := eluarpcGenRead_of_at hfs hops htail
  refine ⟨fs, vs, hread, fields?_reencodeArgs hfs hops hvs, htail, hsize, ?_⟩
  rw [← hsize]
  exact hvs.inside hfs

/-- **When the decoder is exact and bounded.**  For every format and every
buffer: exactly when the embedded lengths keep all fields and the end marker
inside the buffer and, if all markers are right, no byte is left over and the
size header is the size of the buffer. -/
theorem eluarpc_decoder_exact_iff {fmt : List Char} {ids : List UInt32} {buf : List UInt8}
    (hids : ids.length = idCount fmt) :
    ExactAndBounded fmt ids buf ↔
      extent buf fmt ≤ buf.length ∧
        (Markers buf fmt ids →
          extent buf fmt = buf.length ∧ At buf 0 (packetHeader buf.length)) := by
  constructor
  · rintro ⟨vs, e, hread, hok⟩
    obtain ⟨hfit, -⟩ := eluarpcGenRead_inv hids hread
    refine ⟨hfit, fun hm => ?_⟩
    obtain ⟨fs, vs', hread', hargs, -, hsize, -⟩ :=
      exists_fields_of_markers_of_extent hids hfit hm
    rw [hread', Option.some.injEq, Prod.mk.injEq] at hread
    obtain ⟨rfl, rfl⟩ := hread
    -- a buffer that differs from `buf` in every byte keeps what is not written
    have hexact := (hok rfl).1 (buf.map (· + 1)) (by simp)
    rw [eluarpcGenWrite_eq hargs (by rw [hsize]; simpa using hfit), Option.some.injEq] at hexact
    have hlen : extent buf fmt = buf.length := by
      by_contra hne
      have hlt : extent buf fmt < buf.length := by omega
      have hget := congrArg (fun l => l[extent buf fmt]?) hexact
      rw [List.getElem?_append_right (by rw [packetBytes_length, hsize]),
        packetBytes_length, hsize, Nat.sub_self, List.getElem?_drop, Nat.add_zero,
        List.getElem?_map, List.getElem?_eq_getElem hlt, Option.map_some,
        Option.some.injEq] at hget
      simp at hget
    refine ⟨hlen, ?_⟩
    have hpre : packetHeader (packetSize fs) <+: buf := by
      rw [← hexact, packetBytes, List.append_assoc]
      exact List.prefix_append _ _
    rw [hsize, hlen] at hpre
    exact hpre
  · rintro ⟨hfit, hexact⟩
    obtain ⟨vs, e, hread⟩ := eluarpcGenRead_of_extent hids hfit
    refine ⟨vs, e, hread, fun he => ?_⟩
    subst he
    have hm := (eluarpcGenRead_inv hids hread).2 rfl
    obtain ⟨hlen, hhdr⟩ := hexact hm
    obtain ⟨fs, vs', hread', hargs, htail, hsize, hin⟩ :=
      exists_fields_of_markers_of_extent hids hfit hm
    rw [hread', Option.some.injEq, Prod.mk.injEq] at hread
    obtain ⟨rfl, -⟩ := hread
    rw [hlen] at hin hsize
    have hbuf : packetBytes fs = buf := by
      have hat : At buf 0 (packetBytes fs) := by
        rw [packetBytes, at_append, hsize]
        exact ⟨hhdr, htail⟩
      refine List.IsPrefix.eq_of_length hat ?_
      rw [packetBytes_length, hsize]
    refine ⟨fun mem hmem => ?_, hin⟩
    rw [eluarpcGenWrite_eq hargs (by omega), hbuf, hsize, ← hmem, List.drop_length,
      List.append_nil]

/-- An `i` field with a right header and right markers. -/
theorem eluarpc_decoder_exact_iff_int :
    ExactAndBounded ['i'] [] [0xA5, 2, 21, 0, 5, 3, 0x84, 0xC2, 0xAF, 0x18, 3, 1, 2, 3, 4,
        6, 3, 0x7B, 0x3D, 0x50, 0xE7] ↔
      extent [0xA5, 2, 21, 0, 5, 3, 0x84, 0xC2, 0xAF, 0x18, 3, 1, 2, 3, 4,
        6, 3, 0x7B, 0x3D, 0x50, 0xE7] ['i'] ≤ 21 ∧
        (Markers [0xA5, 2, 21, 0, 5, 3, 0x84, 0xC2, 0xAF, 0x18, 3, 1, 2, 3, 4,
          6, 3, 0x7B, 0x3D, 0x50, 0xE7] ['i'] [] →
          extent [0xA5, 2, 21, 0, 5, 3, 0x84, 0xC2, 0xAF, 0x18, 3, 1, 2, 3, 4,
            6, 3, 0x7B, 0x3D, 0x50, 0xE7] ['i'] = 21 ∧
          At [0xA5, 2, 21, 0, 5, 3, 0x84, 0xC2, 0xAF, 0x18, 3, 1, 2, 3, 4,
            6, 3, 0x7B, 0x3D, 0x50, 0xE7] 0 (packetHeader 21)) :=
  eluarpc_decoder_exact_iff (by decide)

/-- A packet of 22 bytes whose `p` field has the embedded length 4096, and
a packet of 17 bytes with one byte after its end marker. -/
theorem eluarpc_decoder_not_exact :
    (eluarpcGetPacketSize [0xA5, 2, 22, 0, 5, 3, 0x84, 0xC2, 0xAF, 0x18,
        4, 3, 0x00, 0x10, 0x00, 0x00, 6, 3, 0x7B, 0x3D, 0x50, 0xE7] = some (22, ELUARPC_OK) ∧
      ¬ ExactAndBounded ['p'] [] [0xA5, 2, 22, 0, 5, 3, 0x84, 0xC2, 0xAF, 0x18,
        4, 3, 0x00, 0x10, 0x00, 0x00, 6, 3, 0x7B, 0x3D, 0x50, 0xE7]) ∧
    (eluarpcGetPacketSize [0xA5, 2, 17, 0, 5, 3, 0x84, 0xC2, 0xAF, 0x18,
        6, 3, 0x7B, 0x3D, 0x50, 0xE7, 0] = some (17, ELUARPC_OK) ∧
      ¬ ExactAndBounded [] [] [0xA5, 2, 17, 0, 5, 3, 0x84, 0xC2, 0xAF, 0x18,
        6, 3, 0x7B, 0x3D, 0x50, 0xE7, 0]) := by
  refine ⟨⟨by decide, ?_⟩, by decide, ?_⟩
  · rintro ⟨vs, e, hread, -⟩
    have hnone : eluarpcGenRead [0xA5, 2, 22, 0, 5, 3, 0x84, 0xC2, 0xAF, 0x18,
        4, 3, 0x00, 0x10, 0x00, 0x00, 6, 3, 0x7B, 0x3D, 0x50, 0xE7] ['p'] [] = none := by
      decide
    rw [hnone] at hread
    exact absurd hread (by simp)
  · rintro ⟨vs, e, hread, hok⟩
    have hsome : eluarpcGenRead [0xA5, 2, 17, 0, 5, 3, 0x84, 0xC2, 0xAF, 0x18,
        6, 3, 0x7B, 0x3D, 0x50, 0xE7, 0] [] [] = some ([], ELUARPC_OK) := by decide
    rw [hsome, Option.some.injEq, Prod.mk.injEq] at hread
    obtain ⟨rfl, rfl⟩ := hread
    have hwrite := (hok rfl).1 (List.replicate 17 1) rfl
    exact absurd hwrite (by decide)

end Rpc
