import EluaWebServer.Lib.Bytes
import EluaWebServer.Lib.Ieee

/-!
# Numbers between two ends of a connection

`client_negotiate` and `server_negotiate` agree on a byte order, a size and a
kind of numbers, and the codec converts numbers between that and the
`lua_Number` of each end.  What reads or writes outside of an object has no
result.
-/

namespace LuaRpc

open Bytes Ieee

/-- The byte order and the `lua_Number` of one end. -/
structure Endpoint where
  little : Bool
  size : Nat
  integral : Bool
  size_ok : size = 4 ∨ size = 8

/-- The fields of a connection that say how numbers are sent. -/
structure Transport where
  locLittle : Bool
  locIntnum : Bool
  netLittle : Bool
  netIntnum : Bool
  lnumBytes : Nat
  deriving DecidableEq, Repr

def RPC_PROTOCOL_VERSION : UInt8 := 3

/-- `"LRPC"` and the version. -/
def preamble : List UInt8 := [0x4C, 0x52, 0x50, 0x43, RPC_PROTOCOL_VERSION]

/-- A header with a configuration: byte order, size of numbers, integral. -/
def header (little : Bool) (lnumBytes : UInt8) (intnum : Bool) : List UInt8 :=
  preamble ++ [little.toUInt8, lnumBytes, intnum.toUInt8]

/-- The header that `client_negotiate` sends. -/
def clientHeader (e : Endpoint) : List UInt8 := header e.little (UInt8.ofNat e.size) e.integral

/-- The end of `client_negotiate`: what the server answered is taken over. -/
def clientNegotiate (e : Endpoint) (answer : List UInt8) : Option Transport :=
  match answer with
  | [h0, h1, h2, h3, h4, h5, h6, h7] =>
      if [h0, h1, h2, h3, h4] = preamble then
        some ⟨e.little, e.integral, h5 &&& 1 ≠ 0, h7 &&& 1 ≠ 0, h6.toNat⟩
      else none
  | _ => none

/-- `server_negotiate`: the connection, and the header that is sent back. -/
def serverNegotiate (e : Endpoint) (request : List UInt8) :
    Option (Transport × List UInt8) :=
  match request with
  | [h0, h1, h2, h3, h4, h5, h6, h7] =>
      if [h0, h1, h2, h3, h4] = preamble then
        -- big endian order if it differs
        let differs := h5 ≠ e.little.toUInt8
        let netLittle := if differs then false else e.little
        let h5 := if differs then 0 else h5
        -- the lowest common size
        let own := UInt8.ofNat e.size
        let h6' := if h6 > own then own else h6
        let lnumBytes := if h6' < own then h6' else own
        -- integers if either side has them
        let mixed := h7 ≠ e.integral.toUInt8
        let netIntnum := if mixed then true else e.integral
        let h7 := if mixed then 1 else h7
        some (⟨e.little, e.integral, netLittle, netIntnum, lnumBytes.toNat⟩,
          [h0, h1, h2, h3, h4, h5, h6', h7])
      else none
  | _ => none

/-- The connection of a client and a server, at each of them. -/
def negotiate (client server : Endpoint) : Option (Transport × Transport) :=
  (serverNegotiate server (clientHeader client)).bind fun (st, answer) =>
    (clientNegotiate client answer).map fun ct => (ct, st)

/-! ## The number codec -/

/-- `swap_bytes`. -/
def swapBytes (number : List UInt8) : List UInt8 :=
  exchanges number number.length (number.length / 2)

/-- The floating-point format of an end that has floating-point numbers. -/
def Endpoint.format (e : Endpoint) : Format := if e.size = 4 then single else double

/-- `( intN_t )x`, for `n` bytes, of the number with the given bits. -/
def castToInt (e : Endpoint) (n x : Nat) : Option Nat :=
  if e.integral then some (wrap n (signed e.size x))
  else (toInt e.format x).bind fun y => if InRange n y then some (wrap n y) else none

/-- `( lua_Number )y`, of an integer of `n` bytes. -/
def castOfInt (e : Endpoint) (n y : Nat) : Nat :=
  if e.integral then wrap e.size (signed n y) else ofInt e.format (signed n y)

/-- The sizes of integers that are handled. -/
def intSize (n : Nat) : Bool := n = 1 ∨ n = 2 ∨ n = 4 ∨ n = 8

/-- Bytes in the byte order of the network, or from it. -/
def Transport.order (tpt : Transport) (bs : List UInt8) : List UInt8 :=
  if tpt.netLittle ≠ tpt.locLittle then swapBytes bs else bs

/-- Read a Lua number from the transport: its bits, and what is left to read. -/
def transportReadNumber (e : Endpoint) (tpt : Transport) (input : List UInt8) :
    Option (Nat × List UInt8) :=
  if input.length < tpt.lnumBytes then none
  else
    let b := tpt.order (input.take tpt.lnumBytes)
    let rest := input.drop tpt.lnumBytes
    if tpt.netIntnum ≠ tpt.locIntnum then
      if intSize tpt.lnumBytes then
        some (castOfInt e tpt.lnumBytes (ofNative tpt.locLittle b), rest)
      else none
    -- the buffer as a native number
    else if b.length < e.size then none
    else some (ofNative tpt.locLittle (b.take e.size), rest)

/-- Write a Lua number with the given bits to the transport. -/
def transportWriteNumber (e : Endpoint) (tpt : Transport) (x : Nat) : Option (List UInt8) :=
  if tpt.netIntnum then
    if intSize tpt.lnumBytes then
      (castToInt e tpt.lnumBytes x).map fun y =>
        tpt.order (native tpt.locLittle tpt.lnumBytes y)
    else none
  -- eight bytes from the address of the number
  else if e.size < 8 then none
  else some (tpt.order ((native tpt.locLittle e.size x).take 8))

/-! ## What is sent arrives -/

/-- The bits are those of a `lua_Number` that is the integer `x`. -/
def IsNumber (e : Endpoint) (b : Nat) (x : Int) : Prop :=
  b < 2 ^ (8 * e.size) ∧ if e.integral then signed e.size b = x else IsInt e.format b x

/-- The integer has a `lua_Number` at that end. -/
def Representable (e : Endpoint) (x : Int) : Prop := ∃ b, IsNumber e b x

/-- However the integer is represented by the writer, the reader reads exactly
the bytes written, and gets it. -/
def Transfers (w r : Endpoint) (wt rt : Transport) (x : Int) : Prop :=
  ∀ b, IsNumber w b x → ∃ bytes, transportWriteNumber w wt b = some bytes ∧
    ∀ rest, ∃ b', transportReadNumber r rt (bytes ++ rest) = some (b', rest) ∧ IsNumber r b' x

/-- When numbers get from the writer to the reader: two ends with
floating-point numbers both have eight bytes, and a reader with integers has no
larger ones than the writer. -/
def CodecOk (w r : Endpoint) : Prop :=
  (w.integral = false → r.integral = false → w.size = 8 ∧ r.size = 8) ∧
    (r.integral = true → r.size ≤ w.size)

instance (w r : Endpoint) : Decidable (CodecOk w r) := inferInstanceAs (Decidable (_ ∧ _))

/-- What both ends hold after the negotiation. -/
def agreed (e other : Endpoint) (netLittle : Bool) : Transport :=
  ⟨e.little, e.integral, netLittle, e.integral || other.integral, min e.size other.size⟩

variable {w r : Endpoint} {x : Int}

theorem negotiate_eq (c s : Endpoint) :
    ∃ netLittle, negotiate c s = some (agreed c s netLittle, agreed s c netLittle) := by
  refine ⟨if c.little = s.little then s.little else false, ?_⟩
  obtain ⟨cl, cs, ci, hcs⟩ := c
  obtain ⟨sl, ss, si, hss⟩ := s
  rcases hcs with rfl | rfl <;> rcases hss with rfl | rfl <;> cases cl <;> cases sl <;>
    cases ci <;> cases si <;> rfl

theorem swapBytes_eq (bs : List UInt8) : swapBytes bs = bs.reverse := exchanges_half bs

/-- A number in memory, in the byte order of the network. -/
theorem order_native (tpt : Transport) (n y : Nat) :
    tpt.order (native tpt.locLittle n y) = native tpt.netLittle n y := by
  rw [Transport.order]
  split
  · rename_i hne
    rw [swapBytes_eq, reverse_native hne.symm]
  · rename_i heq
    rw [not_not] at heq
    rw [heq]

/-- And back in memory. -/
theorem order_network (tpt : Transport) (n y : Nat) :
    tpt.order (native tpt.netLittle n y) = native tpt.locLittle n y := by
  rw [Transport.order]
  split
  · rename_i hne
    rw [swapBytes_eq, reverse_native hne]
  · rename_i heq
    rw [not_not] at heq
    rw [heq]

theorem format_bits (e : Endpoint) :
    2 ≤ e.format.expBits ∧ 1 + e.format.expBits + e.format.fracBits = 8 * e.size := by
  rcases e.size_ok with h | h
  · rw [Endpoint.format, if_pos h, h]
    decide
  · rw [Endpoint.format, if_neg (by omega), h]
    decide

theorem castToInt_eq {b n : Nat} (h : IsNumber w b x) (hrange : InRange n x) :
    castToInt w n b = some (wrap n x) := by
  obtain ⟨-, hvalue⟩ := h
  rw [castToInt]
  split
  · rename_i hint
    rw [if_pos hint] at hvalue
    rw [hvalue]
  · rename_i hfloat
    rw [if_neg hfloat] at hvalue
    rw [toInt_of_isInt hvalue, Option.bind_some, if_pos hrange]

theorem castOfInt_isNumber {n : Nat} (hn : 0 < n) (hfloat : r.integral = false)
    (h : Representable r x) (hrange : InRange n x) : IsNumber r (castOfInt r n (wrap n x)) x := by
  obtain ⟨b, -, hvalue⟩ := h
  obtain ⟨hexp, hbits⟩ := format_bits r
  rw [hfloat, if_neg Bool.false_ne_true] at hvalue
  obtain ⟨hint, hlt⟩ := isInt_ofInt hexp hvalue
  rw [castOfInt, hfloat, if_neg Bool.false_ne_true, signed_wrap hn hrange]
  refine ⟨hbits ▸ hlt, ?_⟩
  rwa [hfloat, if_neg Bool.false_ne_true]

theorem intSize_min (w r : Endpoint) :
    intSize (min w.size r.size) = true ∧ 0 < min w.size r.size := by
  rcases w.size_ok with hw | hw <;> rcases r.size_ok with hr | hr <;> rw [hw, hr] <;> decide

variable {netLittle : Bool}

/-- With integers on the network, an integer is written in the common size. -/
theorem write_int {b : Nat} (hint : (w.integral || r.integral) = true) (h : IsNumber w b x)
    (hrange : InRange (min w.size r.size) x) :
    transportWriteNumber w (agreed w r netLittle) b =
      some (native netLittle (min w.size r.size) (wrap (min w.size r.size) x)) := by
  have hsize := (intSize_min w r).1
  unfold transportWriteNumber agreed
  rw [if_pos hint, if_pos hsize, castToInt_eq h hrange, Option.map_some]
  exact congrArg some (order_native ⟨w.little, _, netLittle, _, _⟩ _ _)

/-- What is at the beginning of the input. -/
theorem take_native (n y : Nat) (rest : List UInt8) :
    (native netLittle n y ++ rest).take n = native netLittle n y ∧
    (native netLittle n y ++ rest).drop n = rest := by
  constructor
  · rw [List.take_left' (length_native _ _ _)]
  · rw [List.drop_left' (length_native _ _ _)]

/-- The reader takes the common size of bytes. -/
theorem read_eq (n y : Nat) (hn : n = min r.size w.size) (rest : List UInt8) :
    transportReadNumber r (agreed r w netLittle) (native netLittle n y ++ rest) =
      if (r.integral || w.integral) ≠ r.integral then
        some (castOfInt r n (ofNative r.little (native r.little n y)), rest)
      else if n < r.size then none
      else some (ofNative r.little (native r.little n y), rest) := by
  obtain ⟨htake, hdrop⟩ := @take_native netLittle n y rest
  have hsize := (intSize_min r w).1
  have hlen : ¬ (native netLittle n y ++ rest).length < n := by
    rw [List.length_append, length_native]
    omega
  have horder : Transport.order (agreed r w netLittle) (native netLittle n y) =
      native r.little n y := order_network (agreed r w netLittle) n y
  rw [← hn] at hsize
  unfold transportReadNumber
  simp only [agreed, ← hn, if_neg hlen, htake, hdrop] at horder ⊢
  rw [horder, length_native, hsize, if_pos rfl]
  have hall : (native r.little n y).take r.size = native r.little n y :=
    List.take_of_length_le (by rw [length_native]; omega)
  rw [hall]

theorem transfers_int (hint : (w.integral || r.integral) = true)
    (hr : Representable r x) (hw : Representable w x) (hrange : InRange (min w.size r.size) x) :
    Transfers w r (agreed w r netLittle) (agreed r w netLittle) x ↔ CodecOk w r := by
  have hcomm : min w.size r.size = min r.size w.size := Nat.min_comm _ _
  have hpos := (intSize_min w r).2
  have hback := ofNative_native r.little (wrap_lt (min w.size r.size) x)
  have hread := @read_eq w r netLittle _ (wrap (min w.size r.size) x) hcomm
  rw [hback] at hread
  cases hrint : r.integral with
  | false =>
      -- the reader converts from an integer
      have hwint : w.integral = true := by simpa [hrint] using hint
      simp only [hrint, hwint, Bool.false_or, ne_eq, Bool.true_eq_false, not_false_iff,
        if_true] at hread
      refine iff_of_true (fun b hb => ⟨_, write_int hint hb hrange, fun rest => ?_⟩) ?_
      · exact ⟨_, hread rest, castOfInt_isNumber hpos hrint hr hrange⟩
      · simp [CodecOk, hrint, hwint]
  | true =>
      simp only [hrint, Bool.true_or, ne_eq, not_true, if_false] at hread
      by_cases hle : r.size ≤ w.size
      · have hmin : min w.size r.size = r.size := Nat.min_eq_right hle
        have hok : CodecOk w r := ⟨by simp [hrint], fun _ => hle⟩
        refine iff_of_true (fun b hb => ⟨_, write_int hint hb hrange, fun rest => ?_⟩) hok
        rw [hmin] at hrange hpos hread ⊢
        simp only [Nat.lt_irrefl, if_false] at hread
        refine ⟨_, hread rest, wrap_lt _ x, ?_⟩
        rw [hrint, if_pos rfl, signed_wrap hpos hrange]
      · have hnot : ¬ CodecOk w r := fun h => hle (h.2 hrint)
        refine iff_of_false (fun h => ?_) hnot
        obtain ⟨b, hb⟩ := hw
        obtain ⟨bytes, hwrite, hafter⟩ := h b hb
        rw [write_int hint hb hrange] at hwrite
        obtain rfl := Option.some.inj hwrite
        obtain ⟨b', hsome, -⟩ := hafter []
        rw [hread, if_pos (by omega)] at hsome
        cases hsome

theorem transfers_float (hwfloat : w.integral = false) (hrfloat : r.integral = false)
    (hw : Representable w x) :
    Transfers w r (agreed w r netLittle) (agreed r w netLittle) x ↔ CodecOk w r := by
  have hiff : CodecOk w r ↔ w.size = 8 ∧ r.size = 8 := by simp [CodecOk, hwfloat, hrfloat]
  rw [hiff]
  have hwrite (b : Nat) : transportWriteNumber w (agreed w r netLittle) b =
      if w.size < 8 then none else some (native netLittle w.size b) := by
    have hall : (native w.little w.size b).take 8 = native w.little w.size b :=
      List.take_of_length_le (by rw [length_native]; rcases w.size_ok with h | h <;> omega)
    unfold transportWriteNumber
    simp only [agreed, hwfloat, hrfloat, Bool.or_false, if_neg Bool.false_ne_true, hall]
    rw [order_native ⟨w.little, false, netLittle, false, min w.size r.size⟩]
  constructor
  · intro h
    obtain ⟨b, hb⟩ := hw
    obtain ⟨bytes, hbytes, hafter⟩ := h b hb
    rw [hwrite] at hbytes
    have hsize : w.size = 8 := by
      by_contra hne
      rw [if_pos (by rcases w.size_ok with h | h <;> omega)] at hbytes
      cases hbytes
    rw [if_neg (by omega), hsize] at hbytes
    obtain rfl := Option.some.inj hbytes
    refine ⟨hsize, ?_⟩
    by_contra hne
    have hrsize : r.size = 4 := r.size_ok.resolve_right hne
    obtain ⟨b', hread, -⟩ := hafter []
    -- four bytes are left to read
    unfold transportReadNumber at hread
    simp only [agreed, hsize, hrsize, hwfloat, hrfloat, List.append_nil, length_native] at hread
    have hmin : min 4 8 = 4 := rfl
    have hlong : ¬ 8 < 4 := by decide
    simp only [hmin, if_neg hlong, if_false, Bool.or_false, ne_eq, not_true] at hread
    split at hread
    · cases hread
    · have hlen := congrArg List.length (Prod.mk.inj (Option.some.inj hread)).2
      rw [List.length_drop, length_native] at hlen
      cases hlen
  · rintro ⟨hw8, hr8⟩ b hb
    refine ⟨_, by rw [hwrite, if_neg (by omega)], fun rest => ⟨b, ?_, ?_⟩⟩
    · have hread := @read_eq w r netLittle w.size b (by rw [hw8, hr8]; rfl) rest
      have hback := ofNative_native r.little hb.1
      rw [hread, hback, hwfloat, hrfloat, hw8, hr8]
      rfl
    · obtain ⟨hlt, hvalue⟩ := hb
      have hsize : r.size = w.size := hr8.trans hw8.symm
      refine ⟨hsize ▸ hlt, ?_⟩
      rw [hwfloat, if_neg Bool.false_ne_true] at hvalue
      rw [hrfloat, if_neg Bool.false_ne_true, Endpoint.format, hsize]
      exact hvalue

/-- **Number codec.**  Both ends agree after the negotiation; and an integer
that fits the agreed width and both `lua_Number`s gets from one end to the
other exactly when the codec is right for these two. -/
theorem number_codec (client server : Endpoint) :
    ∃ ct st, negotiate client server = some (ct, st) ∧
      (ct.netLittle = st.netLittle ∧ ct.lnumBytes = st.lnumBytes ∧
        ct.netIntnum = st.netIntnum) ∧
      ∀ x, InRange ct.lnumBytes x → Representable client x → Representable server x →
        (Transfers client server ct st x ↔ CodecOk client server) ∧
        (Transfers server client st ct x ↔ CodecOk server client) := by
  obtain ⟨netLittle, hnegotiate⟩ := negotiate_eq client server
  refine ⟨_, _, hnegotiate, ⟨rfl, Nat.min_comm _ _, Bool.or_comm _ _⟩,
    fun x hrange hc hs => ?_⟩
  have hrange' : InRange (min server.size client.size) x := by
    rwa [Nat.min_comm]
  by_cases hint : (client.integral || server.integral) = true
  · exact ⟨transfers_int hint hs hc hrange,
      transfers_int (by rwa [Bool.or_comm]) hc hs hrange'⟩
  · rw [Bool.or_eq_true, not_or, Bool.not_eq_true, Bool.not_eq_true] at hint
    exact ⟨transfers_float hint.1 hint.2 hc, transfers_float hint.2 hint.1 hs⟩

/-- Eight-byte numbers are sent to an end with four-byte numbers, all of them
floating-point. -/
theorem number_codec_fails :
    ¬ ∀ (client server : Endpoint), ∃ ct st, negotiate client server = some (ct, st) ∧
      (ct.netLittle = st.netLittle ∧ ct.lnumBytes = st.lnumBytes ∧
        ct.netIntnum = st.netIntnum) ∧
      ∀ x, InRange ct.lnumBytes x → Representable client x → Representable server x →
        Transfers client server ct st x ∧ Transfers server client st ct x := by
  intro h
  let client : Endpoint := ⟨true, 8, false, .inr rfl⟩
  let server : Endpoint := ⟨true, 4, false, .inl rfl⟩
  have hc : Representable client 1 := ⟨0x3FF0000000000000, by decide, by decide +kernel⟩
  have hs : Representable server 1 := ⟨0x3F800000, by decide, by decide +kernel⟩
  obtain ⟨ct, st, hnegotiate, -, htransfers⟩ := h client server
  obtain ⟨netLittle, hagreed⟩ := negotiate_eq client server
  rw [hagreed] at hnegotiate
  obtain ⟨rfl, rfl⟩ := Prod.mk.inj (Option.some.inj hnegotiate)
  have hone := (htransfers 1 (show InRange 4 1 by decide) hc hs).1
  exact absurd ((transfers_float rfl rfl hc).mp hone) (by decide)

end LuaRpc
