import EluaWebServer.Tcp.Demux
import EluaWebServer.Lib.Buffer
import EluaWebServer.Lib.OnesComplement

/-!
# Packets

A segment travels in an IP packet, with a checksum over the header of IP and one over the segment
and the addresses.  What one side sends the other one reads as the same segment; a packet in which a
word has changed is dropped; and the answer to a ping, whose checksums are not computed anew, has
the right ones.
-/

namespace Tcp

open OnesComplement

def UIP_TTL : UInt8 := 64
def UIP_PROTO_ICMP : UInt8 := 1
def UIP_PROTO_TCP : UInt8 := 6
def UIP_PROTO_UDP : UInt8 := 17
def ICMP_ECHO_REPLY : UInt8 := 0
def ICMP_ECHO : UInt8 := 8

/-! ## Checksums -/

/-- `(b0 << 8) + b1` -/
def word (b0 b1 : UInt8) : UInt16 := b0.toUInt16 <<< 8 + b1.toUInt16

/-- `sum += t`, with the carry. -/
def addCarry (sum t : UInt16) : UInt16 := if sum + t < t then sum + t + 1 else sum + t

/-- `chksum` -/
def chksum (sum : UInt16) : List UInt8 → UInt16
  | [] => sum
  | [b] => addCarry sum (word b 0)
  | b0 :: b1 :: data => chksum (addCarry sum (word b0 b1)) data

/-- `(sum == 0) ? 0xffff : htons(sum)` -/
def checksumOf (sum : UInt16) : UInt16 := if sum = 0 then 0xffff else htons sum

/-- A byte of the packet, from the header of IP on. -/
def byteAt (buf : List UInt8) (i : Nat) : UInt8 := buf.getD i 0

/-- `uip_ipchksum` -/
def uipIpchksum (buf : List UInt8) : UInt16 := checksumOf (chksum 0 (Buffer.slice buf 0 20))

/-- `upper_layer_len` -/
def upperLayerLen (buf : List UInt8) : UInt16 := word (byteAt buf 2) (byteAt buf 3) - UIP_IPH_LEN

/-- `upper_layer_chksum`: the length and the protocol, the addresses, and the segment. -/
def upperLayerChksum (buf : List UInt8) (proto : UInt8) : UInt16 :=
  let sum := upperLayerLen buf + proto.toUInt16
  let sum := chksum sum (Buffer.slice buf 12 8)
  checksumOf (chksum sum (Buffer.slice buf 20 (upperLayerLen buf).toNat))

/-- `uip_tcpchksum` -/
def uipTcpchksum (buf : List UInt8) : UInt16 := upperLayerChksum buf UIP_PROTO_TCP

/-! ## Sending -/

/-- The bytes of a number in the order of the network. -/
def netBytes (v : UInt16) : List UInt8 := [((v >>> 8) &&& 0xFF).toUInt8, (v &&& 0xFF).toUInt8]

def Seqno.bytes (q : Seqno) : List UInt8 := [q.b0, q.b1, q.b2, q.b3]

/-- The control bits in their byte. -/
def TcpFlags.byte (f : TcpFlags) : UInt8 :=
  (if f.fin then 0x01 else 0) ||| (if f.syn then 0x02 else 0) ||| (if f.rst then 0x04 else 0) |||
    (if f.psh then 0x08 else 0) ||| (if f.ack then 0x10 else 0) ||| (if f.urg then 0x20 else 0)

/-- The header of IP, with its checksum. -/
def ipHeader (len ipid : UInt16) (proto : UInt8) (srcipaddr destipaddr : UipIpaddr)
    (ipchksum : UInt16) : List UInt8 :=
  [0x45, 0] ++ netBytes len ++ netBytes ipid ++ [0, 0] ++ [UIP_TTL, proto] ++
    Word.bytes16 ipchksum ++ (Word.bytes16 srcipaddr.1 ++ Word.bytes16 srcipaddr.2 ++
      Word.bytes16 destipaddr.1 ++ Word.bytes16 destipaddr.2)

/-- The header of TCP up to its checksum.  The urgent pointer after it is zero. -/
def tcpHeader (seg : Segment) : List UInt8 :=
  Word.bytes16 seg.srcport ++ Word.bytes16 seg.destport ++ seg.seqno.bytes ++ seg.ackno.bytes ++
    [UInt8.ofNat seg.tcpoffset <<< 4, seg.flags.byte] ++ netBytes seg.wnd

/-- A packet with a segment and two checksums. -/
def packet (ipid : UInt16) (seg : Segment) (tcpchksum ipchksum : UInt16) : List UInt8 :=
  ipHeader seg.uipLen ipid UIP_PROTO_TCP seg.srcipaddr seg.destipaddr ipchksum ++
    (tcpHeader seg ++ (Word.bytes16 tcpchksum ++ ([0, 0] ++ seg.data)))

/-- From `tcp_send_noconn` to `send`: each checksum is computed while it is zero itself. -/
def tcpSendNoconn (ipid : UInt16) (seg : Segment) : List UInt8 :=
  let tcpchksum := ~~~ uipTcpchksum (packet ipid seg 0 0)
  let ipchksum := ~~~ uipIpchksum (packet ipid seg tcpchksum 0)
  packet ipid seg tcpchksum ipchksum

/-! ## Receiving -/

/-- Two bytes of the packet as a `u16_t`. -/
def u16At (buf : List UInt8) (i : Nat) : UInt16 := Word.ofBytes16 (byteAt buf i) (byteAt buf (i + 1))

/-- Two bytes of the packet in the order of the network. -/
def netAt (buf : List UInt8) (i : Nat) : UInt16 := word (byteAt buf i) (byteAt buf (i + 1))

def seqnoAt (buf : List UInt8) (i : Nat) : Seqno :=
  ⟨byteAt buf i, byteAt buf (i + 1), byteAt buf (i + 2), byteAt buf (i + 3)⟩

/-- The control bits of a byte. -/
def tcpFlagsOf (b : UInt8) : TcpFlags where
  fin := b &&& 0x01 ≠ 0
  syn := b &&& 0x02 ≠ 0
  rst := b &&& 0x04 ≠ 0
  psh := b &&& 0x08 ≠ 0
  ack := b &&& 0x10 ≠ 0
  urg := b &&& 0x20 ≠ 0

/-- The segment of a packet of a length. -/
def segmentOf (buf : List UInt8) (uipLen : Nat) : Segment where
  srcipaddr := (u16At buf 12, u16At buf 14)
  destipaddr := (u16At buf 16, u16At buf 18)
  srcport := u16At buf 20
  destport := u16At buf 22
  seqno := seqnoAt buf 24
  ackno := seqnoAt buf 28
  flags := tcpFlagsOf (byteAt buf 33)
  tcpoffset := (byteAt buf 32 >>> 4).toNat
  wnd := netAt buf 34
  urgp := netAt buf 38
  data := (buf.take uipLen).drop 40

/-- What becomes of a packet. -/
inductive Received where
  | drop
  | udp
  | icmp (reply : List UInt8)
  | tcp (seg : Segment)
  deriving DecidableEq

/-- `icmpchksum` when the type of the packet is that of a reply. -/
def icmpReplyChksum (icmpchksum : UInt16) : UInt16 :=
  if htons ((0xffff : UInt16) - ICMP_ECHO.toUInt16 <<< 8) ≤ icmpchksum then
    icmpchksum + (htons (ICMP_ECHO.toUInt16 <<< 8) + 1)
  else icmpchksum + htons (ICMP_ECHO.toUInt16 <<< 8)

/-- The reply to a ping, in the same buffer: the addresses, the type and the checksum change. -/
def icmpReply (hostaddr : UipIpaddr) (buf : List UInt8) : List UInt8 :=
  Buffer.slice buf 0 12 ++ (Word.bytes16 hostaddr.1 ++ Word.bytes16 hostaddr.2) ++
    Buffer.slice buf 12 4 ++ [ICMP_ECHO_REPLY, byteAt buf 21] ++
    Word.bytes16 (icmpReplyChksum (u16At buf 22)) ++ buf.drop 24

/-- The length of the packet in its header. -/
def lenAt (buf : List UInt8) : Nat := (netAt buf 2).toNat

/-- The header of IP is one that is accepted, and the packet is complete. -/
def headerOk (buf : List UInt8) (uipLen : Nat) : Bool :=
  byteAt buf 0 = 0x45 && lenAt buf ≤ uipLen

/-- The packet is a fragment. -/
def fragment (buf : List UInt8) : Bool := byteAt buf 6 &&& 0x3f ≠ 0 || byteAt buf 7 ≠ 0

/-- A broadcast with UDP, which is accepted before its destination is looked at. -/
def broadcast (buf : List UInt8) : Bool :=
  byteAt buf 9 = UIP_PROTO_UDP && (u16At buf 16, u16At buf 18) = (0xffff, 0xffff)

/-- What is done with a packet for this host. -/
def ipProto (hostaddr : UipIpaddr) (buf : List UInt8) : Received :=
  if uipIpchksum buf ≠ 0xffff then .drop
  else if byteAt buf 9 = UIP_PROTO_TCP then
    if uipTcpchksum buf ≠ 0xffff then .drop else .tcp (segmentOf buf (lenAt buf))
  else if byteAt buf 9 = UIP_PROTO_UDP then .udp
  else if byteAt buf 9 ≠ UIP_PROTO_ICMP then .drop
  else if byteAt buf 20 ≠ ICMP_ECHO then .drop
  else .icmp ((icmpReply hostaddr buf).take (lenAt buf))

/-- The header processing of `uip_process( UIP_DATA )`, for the buffer and the number of bytes that
have been received. -/
def ipInput (hostaddr : UipIpaddr) (buf : List UInt8) (uipLen : Nat) : Received :=
  if !headerOk buf uipLen then .drop
  else if fragment buf then .drop
  else if hostaddr = (0, 0) then ipProto hostaddr buf
  else if broadcast buf then .udp
  else if (u16At buf 16, u16At buf 18) ≠ hostaddr then .drop
  else ipProto hostaddr buf

/-! ## What the checksums compute -/

theorem toNat_word (b0 b1 : UInt8) : (word b0 b1).toNat = b0.toNat * 256 + b1.toNat := by
  have h0 := b0.toNat_lt
  have h1 := b1.toNat_lt
  rw [word, UInt16.toNat_add, UInt16.toNat_shiftLeft, UInt8.toNat_toUInt16, UInt8.toNat_toUInt16]
  change (b0.toNat <<< 8 % 2 ^ 16 + b1.toNat) % 2 ^ 16 = _
  rw [Nat.shiftLeft_eq]
  omega

theorem toNat_addCarry (s t : UInt16) :
    (addCarry s t).toNat = fold 65535 (s.toNat + t.toNat) := by
  have hs := s.toNat_lt
  have ht := t.toNat_lt
  rw [← add_carry (m := 65535) (by omega) (by omega), addCarry]
  have hsum : (s + t).toNat = (s.toNat + t.toNat) % (65535 + 1) := UInt16.toNat_add s t
  by_cases hlt : s + t < t
  · have hcarry := UInt16.lt_iff_toNat_lt.mp hlt
    rw [hsum] at hcarry
    rw [if_pos hlt, if_pos hcarry, UInt16.toNat_add, hsum]
    change ((s.toNat + t.toNat) % (65535 + 1) + 1) % 2 ^ 16 = _
    omega
  · have hcarry := mt UInt16.lt_iff_toNat_lt.mpr hlt
    rw [hsum] at hcarry
    rw [if_neg hlt, if_neg hcarry, hsum]

/-- **The sum.**  `chksum` adds the words of the data. -/
theorem toNat_chksum (s : UInt16) (data : List UInt8) :
    (chksum s data).toNat = fold 65535 (s.toNat + total data) := by
  have hs := s.toNat_lt
  induction s, data using chksum.induct with
  | case1 s => rw [chksum, total_nil, Nat.add_zero, fold_of_le (by omega)]
  | case2 s b =>
      rw [chksum, toNat_addCarry, toNat_word]
      rfl
  | case3 s b0 b1 data ih =>
      rw [chksum, ih (UInt16.toNat_lt _), toNat_addCarry, fold_fold_add, toNat_word, total_pair,
        Nat.add_assoc]

/-- A sum passes the check in either of the representations of zero. -/
theorem checksumOf_eq_iff (sum : UInt16) : checksumOf sum = 0xffff ↔ 65535 ∣ sum.toNat := by
  have hlt := sum.toNat_lt
  unfold checksumOf
  split
  next hzero =>
    rw [hzero]
    exact ⟨fun _ => Nat.dvd_zero _, fun _ => rfl⟩
  next hzero =>
    have hpos : sum.toNat ≠ 0 := fun h => hzero (UInt16.toNat_inj.mp h)
    rw [← UInt16.toNat_inj, toNat_htons]
    change sum.toNat / 256 + sum.toNat % 256 * 2 ^ 8 = 65535 ↔ _
    omega

/-- The word in memory, as it is added. -/
theorem total_bytes16 (v : UInt16) :
    total (Word.bytes16 v) = v.toNat % 256 * 256 + v.toNat / 256 := by
  have hv := v.toNat_lt
  rw [Word.bytes16, total_pair, total_nil]
  simp only [UInt16.toNat_toUInt8, UInt16.toNat_and, UInt16.toNat_shiftRight,
    UInt16.reduceToNat, Nat.reduceMod, Nat.shiftRight_eq_div_pow,
    Nat.and_two_pow_sub_one_eq_mod _ 8]
  omega

/-- The word that a checksum is stored as: the complement of the sum. -/
theorem total_checksum (sum : UInt16) :
    total (Word.bytes16 (~~~ checksumOf sum)) = if sum = 0 then 0 else 65535 - sum.toNat := by
  have hlt := sum.toNat_lt
  rw [total_bytes16, UInt16.toNat_not, checksumOf]
  split
  · rfl
  · rw [toNat_htons]
    change (65535 - _) % 256 * 256 + (65535 - _) / 256 = _
    omega

/-- What has been sent passes the check of the receiver. -/
theorem dvd_total_checksum {sum : UInt16} {x : Nat} (hsum : sum.toNat = fold 65535 x) :
    65535 ∣ x + total (Word.bytes16 (~~~ checksumOf sum)) := by
  rw [total_checksum]
  split
  next hzero =>
    rw [hzero] at hsum
    rw [fold_eq_zero.mp hsum.symm]
    exact Nat.dvd_zero _
  next =>
    rw [hsum]
    exact dvd_add_complement (by decide) x

/-- What `uip_ipchksum` adds. -/
theorem uipIpchksum_eq_iff (buf : List UInt8) :
    uipIpchksum buf = 0xffff ↔ 65535 ∣ total (Buffer.slice buf 0 20) := by
  rw [uipIpchksum, checksumOf_eq_iff, toNat_chksum, UInt16.toNat_zero, Nat.zero_add]
  exact (Nat.ModEq.dvd_iff (fold_modEq _ _) (dvd_refl _))

/-- What `uip_tcpchksum` adds: the header that is not in the packet, the addresses and the
segment. -/
def pseudoTotal (buf : List UInt8) : Nat :=
  (upperLayerLen buf + UIP_PROTO_TCP.toUInt16).toNat + total (Buffer.slice buf 12 8) +
    total (Buffer.slice buf 20 (upperLayerLen buf).toNat)

theorem toNat_tcpSum (buf : List UInt8) :
    (chksum (chksum (upperLayerLen buf + UIP_PROTO_TCP.toUInt16) (Buffer.slice buf 12 8))
      (Buffer.slice buf 20 (upperLayerLen buf).toNat)).toNat = fold 65535 (pseudoTotal buf) := by
  rw [toNat_chksum, toNat_chksum, fold_fold_add, pseudoTotal]

theorem uipTcpchksum_eq_iff (buf : List UInt8) :
    uipTcpchksum buf = 0xffff ↔ 65535 ∣ pseudoTotal buf := by
  rw [uipTcpchksum, upperLayerChksum, checksumOf_eq_iff, toNat_tcpSum]
  exact (Nat.ModEq.dvd_iff (fold_modEq _ _) (dvd_refl _))

/-! ## Sending and receiving -/

theorem word_netBytes (v : UInt16) :
    word ((v >>> 8) &&& 0xFF).toUInt8 (v &&& 0xFF).toUInt8 = v := by
  have hv := v.toNat_lt
  refine UInt16.toNat_inj.mp ?_
  rw [toNat_word]
  simp only [UInt16.toNat_toUInt8, UInt16.toNat_and, UInt16.toNat_shiftRight, UInt16.reduceToNat,
    Nat.reduceMod, Nat.shiftRight_eq_div_pow, Nat.and_two_pow_sub_one_eq_mod _ 8]
  omega

theorem tcpFlagsOf_byte (f : TcpFlags) : tcpFlagsOf f.byte = f := by
  obtain ⟨fin, syn, rst, psh, ack, urg⟩ := f
  cases fin <;> cases syn <;> cases rst <;> cases psh <;> cases ack <;> cases urg <;> decide

/-- The offset of the data in the upper half of its byte. -/
theorem toNat_tcpoffset {k : Nat} (h : k < 16) : ((UInt8.ofNat k <<< 4) >>> 4).toNat = k := by
  rw [UInt8.toNat_shiftRight, UInt8.toNat_shiftLeft, UInt8.toNat_ofNat']
  change ((k % 2 ^ 8) <<< 4 % 2 ^ 8) >>> 4 = k
  rw [Nat.shiftLeft_eq, Nat.shiftRight_eq_div_pow]
  omega

section

variable (ipid : UInt16) (seg : Segment) (tcpchksum ipchksum : UInt16) (stale : List UInt8)

theorem lenAt_packet : lenAt (packet ipid seg tcpchksum ipchksum ++ stale) = seg.uipLen.toNat :=
  congrArg UInt16.toNat (word_netBytes seg.uipLen)

theorem length_packet :
    (packet ipid seg tcpchksum ipchksum).length = 40 + seg.data.length := by
  simp [packet, ipHeader, tcpHeader, netBytes, Seqno.bytes, Word.bytes16]
  omega

/-- What is in the packet is the segment. -/
theorem segmentOf_packet (hoffset : seg.tcpoffset < 16) (hurgp : seg.urgp = 0) :
    segmentOf (packet ipid seg tcpchksum ipchksum ++ stale) (40 + seg.data.length) = seg := by
  have htake : (packet ipid seg tcpchksum ipchksum ++ stale).take (40 + seg.data.length) =
      packet ipid seg tcpchksum ipchksum :=
    List.take_left' (length_packet ..)
  refine Segment.ext ?_ ?_ ?_ ?_ rfl rfl ?_ ?_ ?_ ?_ ?_
  · exact Prod.ext (Word.ofBytes16_bytes16 seg.srcipaddr.1) (Word.ofBytes16_bytes16 seg.srcipaddr.2)
  · exact Prod.ext (Word.ofBytes16_bytes16 seg.destipaddr.1)
      (Word.ofBytes16_bytes16 seg.destipaddr.2)
  · exact Word.ofBytes16_bytes16 seg.srcport
  · exact Word.ofBytes16_bytes16 seg.destport
  · exact tcpFlagsOf_byte seg.flags
  · exact toNat_tcpoffset hoffset
  · exact word_netBytes seg.wnd
  · have hzero : word 0 0 = 0 := by decide
    exact hzero.trans hurgp.symm
  · dsimp only [segmentOf]
    rw [htake]
    rfl

theorem upperLayerLen_packet (hlen : seg.data.length < 65496) :
    (upperLayerLen (packet ipid seg tcpchksum ipchksum ++ stale)).toNat = 20 + seg.data.length := by
  have hword : upperLayerLen (packet ipid seg tcpchksum ipchksum ++ stale) =
      seg.uipLen - UIP_IPH_LEN := congrArg (· - UIP_IPH_LEN) (word_netBytes seg.uipLen)
  rw [hword, Segment.uipLen, UInt16.toNat_sub, UInt16.toNat_ofNat']
  change (2 ^ 16 - 20 + (40 + seg.data.length) % 2 ^ 16) % 2 ^ 16 = _
  omega

theorem total_bytes16_append (v : UInt16) (bs : List UInt8) :
    total (Word.bytes16 v ++ bs) = total (Word.bytes16 v) + total bs :=
  total_append (by rw [Word.bytes16_length])

theorem length_tcpHeader : (tcpHeader seg).length = 16 := by
  simp [tcpHeader, netBytes, Seqno.bytes]

theorem total_tcpHeader_append (bs : List UInt8) :
    total (tcpHeader seg ++ bs) = total (tcpHeader seg) + total bs :=
  total_append (by rw [length_tcpHeader])

/-- What is covered by the checksum of TCP. -/
theorem slice_packet :
    Buffer.slice (packet ipid seg tcpchksum ipchksum ++ stale) 20 (20 + seg.data.length) =
      tcpHeader seg ++ (Word.bytes16 tcpchksum ++ ([0, 0] ++ seg.data)) := by
  have hdrop : (packet ipid seg tcpchksum ipchksum ++ stale).drop 20 =
      tcpHeader seg ++ (Word.bytes16 tcpchksum ++ ([0, 0] ++ seg.data)) ++ stale := by
    rw [packet, List.append_assoc]
    exact List.drop_left' rfl
  rw [Buffer.slice, hdrop]
  exact List.take_left' (by simp [length_tcpHeader]; omega)

/-- What the checksum of TCP has to make a multiple of the largest word. -/
theorem pseudoTotal_packet (hlen : seg.data.length < 65496) :
    pseudoTotal (packet ipid seg tcpchksum ipchksum ++ stale) =
      pseudoTotal (packet ipid seg 0 0) + total (Word.bytes16 tcpchksum) := by
  have hsum : ∀ (chk chk' : UInt16) (stale : List UInt8),
      pseudoTotal (packet ipid seg chk chk' ++ stale) =
        (seg.uipLen - UIP_IPH_LEN + UIP_PROTO_TCP.toUInt16).toNat +
          total (Word.bytes16 seg.srcipaddr.1 ++ Word.bytes16 seg.srcipaddr.2 ++
            Word.bytes16 seg.destipaddr.1 ++ Word.bytes16 seg.destipaddr.2) +
          (total (tcpHeader seg) + total (Word.bytes16 chk) + total ([0, 0] ++ seg.data)) := by
    intro chk chk' stale
    have hword : upperLayerLen (packet ipid seg chk chk' ++ stale) =
      seg.uipLen - UIP_IPH_LEN := congrArg (· - UIP_IPH_LEN) (word_netBytes seg.uipLen)
    rw [pseudoTotal, upperLayerLen_packet _ _ _ _ _ hlen, slice_packet, hword,
      total_tcpHeader_append, total_bytes16_append,
      Nat.add_assoc (total (tcpHeader seg))]
    rfl
  have hzero := hsum 0 0 []
  rw [List.append_nil] at hzero
  have hnone : total (Word.bytes16 0) = 0 := rfl
  rw [hsum, hzero, hnone]
  omega

theorem uipTcpchksum_packet (hlen : seg.data.length < 65496) :
    uipTcpchksum (packet ipid seg (~~~ uipTcpchksum (packet ipid seg 0 0)) ipchksum ++ stale) =
      0xffff := by
  rw [uipTcpchksum_eq_iff, pseudoTotal_packet _ _ _ _ _ hlen]
  exact dvd_total_checksum (toNat_tcpSum _)

theorem uipIpchksum_packet :
    uipIpchksum (packet ipid seg tcpchksum (~~~ uipIpchksum (packet ipid seg tcpchksum 0)) ++ stale)
      = 0xffff := by
  have hslice : ∀ (chk : UInt16) (stale : List UInt8),
      Buffer.slice (packet ipid seg tcpchksum chk ++ stale) 0 20 =
        ([0x45, 0] ++ netBytes seg.uipLen ++ netBytes ipid ++ [0, 0] ++ [UIP_TTL, UIP_PROTO_TCP]) ++
          (Word.bytes16 chk ++ (Word.bytes16 seg.srcipaddr.1 ++ Word.bytes16 seg.srcipaddr.2 ++
            Word.bytes16 seg.destipaddr.1 ++ Word.bytes16 seg.destipaddr.2)) := fun _ _ => rfl
  have hzero := hslice 0 []
  have heven : ([0x45, 0] ++ netBytes seg.uipLen ++ netBytes ipid ++ [0, 0] ++
      [UIP_TTL, UIP_PROTO_TCP]).length % 2 = 0 := by simp [netBytes]
  rw [List.append_nil] at hzero
  have hsum := toNat_chksum 0 (Buffer.slice (packet ipid seg tcpchksum 0) 0 20)
  rw [UInt16.toNat_zero, Nat.zero_add] at hsum
  have hdvd := dvd_total_checksum hsum
  rw [uipIpchksum_eq_iff, hslice, total_append heven, total_bytes16_append]
  rw [hzero, total_append heven, total_bytes16_append] at hdvd
  have hnone : total (Word.bytes16 0) = 0 := rfl
  rw [hnone, Nat.zero_add, ← hzero] at hdvd
  rw [uipIpchksum]
  refine (congrArg (65535 ∣ ·) ?_).mp hdvd
  omega

/-- **Packets carry segments.**  Whatever follows the packet in the buffer, the host that a segment
is sent to reads the segment from it. -/
theorem ipInput_tcpSendNoconn {hostaddr : UipIpaddr}
    (hhost : hostaddr = (0, 0) ∨ seg.destipaddr = hostaddr) (hoffset : seg.tcpoffset < 16)
    (hurgp : seg.urgp = 0) (hlen : seg.data.length < 65496) {uipLen : Nat}
    (hrecv : 40 + seg.data.length ≤ uipLen) :
    ipInput hostaddr (tcpSendNoconn ipid seg ++ stale) uipLen = .tcp seg := by
  have hlenAt : lenAt (tcpSendNoconn ipid seg ++ stale) = 40 + seg.data.length := by
    rw [tcpSendNoconn, lenAt_packet, Segment.uipLen, UInt16.toNat_ofNat',
      Nat.mod_eq_of_lt (by omega)]
  have hheader : headerOk (tcpSendNoconn ipid seg ++ stale) uipLen = true := by
    rw [headerOk, hlenAt, decide_eq_true hrecv]
    rfl
  have hfragment : fragment (tcpSendNoconn ipid seg ++ stale) = false := by
    have h6 : byteAt (tcpSendNoconn ipid seg ++ stale) 6 = 0 := rfl
    have h7 : byteAt (tcpSendNoconn ipid seg ++ stale) 7 = 0 := rfl
    rw [fragment, h6, h7]
    rfl
  have hbroadcast : broadcast (tcpSendNoconn ipid seg ++ stale) = false := rfl
  have hdest : (u16At (tcpSendNoconn ipid seg ++ stale) 16, u16At (tcpSendNoconn ipid seg ++ stale) 18)
      = seg.destipaddr :=
    Prod.ext (Word.ofBytes16_bytes16 seg.destipaddr.1) (Word.ofBytes16_bytes16 seg.destipaddr.2)
  have hproto : ipProto hostaddr (tcpSendNoconn ipid seg ++ stale) = .tcp seg := by
    have hip := uipIpchksum_packet ipid seg (~~~ uipTcpchksum (packet ipid seg 0 0)) stale
    have htcp := uipTcpchksum_packet ipid seg (~~~ uipIpchksum (packet ipid seg
      (~~~ uipTcpchksum (packet ipid seg 0 0)) 0)) stale hlen
    have hbyte : byteAt (tcpSendNoconn ipid seg ++ stale) 9 = UIP_PROTO_TCP := rfl
    rw [ipProto, hlenAt, hbyte, if_pos rfl, tcpSendNoconn]
    rw [hip, htcp, if_neg (by decide), if_neg (by decide), segmentOf_packet _ _ _ _ _ hoffset hurgp]
  rw [ipInput, hheader, hfragment, hbroadcast, hdest, hproto]
  rcases hhost with rfl | rfl
  · rfl
  · simp

end

theorem ipInput_tcpSendNoconn_sample :
    ipInput (1, 2) (tcpSendNoconn 7 sampleSyn ++ [0, 0]) 42 = .tcp sampleSyn :=
  ipInput_tcpSendNoconn 7 sampleSyn [0, 0] (.inr rfl) (by decide) rfl (by decide) (by decide)

/-! ## Packets that have changed on the way -/

/-- The sum of a part of a buffer in which there is a word. -/
theorem total_slice_word {pre : List UInt8} {p n : Nat} (b0 b1 : UInt8) (post : List UInt8)
    (hp : p ≤ pre.length) (heven : (pre.length - p) % 2 = 0) (hn : pre.length + 2 ≤ p + n) :
    total (Buffer.slice (pre ++ b0 :: b1 :: post) p n) =
      total (pre.drop p) + (post.take (p + n - pre.length - 2) |> total) + (word b0 b1).toNat := by
  have hcount : n = (pre.drop p).length + ((p + n - pre.length - 2) + 1 + 1) := by
    rw [List.length_drop]
    omega
  have hslice : Buffer.slice (pre ++ b0 :: b1 :: post) p n =
      pre.drop p ++ b0 :: b1 :: post.take (p + n - pre.length - 2) := by
    rw [Buffer.slice, List.drop_append_of_le_length hp]
    conv_lhs => rw [hcount]
    rw [List.take_length_add_append, List.take_succ_cons, List.take_succ_cons]
  rw [hslice, total_append (by rw [List.length_drop]; exact heven), total_pair, toNat_word]
  omega

theorem byteAt_append_of_lt {pre post post' : List UInt8} {i : Nat} (h : i < pre.length) :
    byteAt (pre ++ post) i = byteAt (pre ++ post') i := by
  unfold byteAt
  rw [List.getD_append _ _ _ _ h, List.getD_append _ _ _ _ h]

/-- What is taken for a segment has passed both checks. -/
theorem checks_of_received {hostaddr : UipIpaddr} {buf : List UInt8} {uipLen : Nat} {seg : Segment}
    (h : ipInput hostaddr buf uipLen = .tcp seg) :
    65535 ∣ total (Buffer.slice buf 0 20) ∧ 65535 ∣ pseudoTotal buf ∧ lenAt buf ≤ uipLen := by
  have hproto : ipProto hostaddr buf = .tcp seg →
      65535 ∣ total (Buffer.slice buf 0 20) ∧ 65535 ∣ pseudoTotal buf := by
    intro h
    unfold ipProto at h
    split at h
    · cases h
    next hip =>
    split at h
    · split at h
      · cases h
      next htcp =>
        exact ⟨(uipIpchksum_eq_iff buf).mp (not_not.mp hip),
          (uipTcpchksum_eq_iff buf).mp (not_not.mp htcp)⟩
    · split at h
      · cases h
      split at h
      · cases h
      split at h <;> cases h
  unfold ipInput at h
  split at h
  · cases h
  next hheader =>
  have hlen : lenAt buf ≤ uipLen := by
    simp only [headerOk, Bool.not_eq_true', Bool.not_eq_false, Bool.and_eq_true,
      decide_eq_true_eq] at hheader
    exact hheader.2
  split at h
  · cases h
  split at h
  · exact ⟨(hproto h).1, (hproto h).2, hlen⟩
  split at h
  · cases h
  split at h
  · cases h
  · exact ⟨(hproto h).1, (hproto h).2, hlen⟩

/-- Two words of which one can stand in the place of the other in a sum. -/
def SameWord (v w : UInt16) : Prop := v = w ∨ (v = 0 ∧ w = 0xffff) ∨ (v = 0xffff ∧ w = 0)

instance (v w : UInt16) : Decidable (SameWord v w) :=
  inferInstanceAs (Decidable (v = w ∨ (v = 0 ∧ w = 0xffff) ∨ (v = 0xffff ∧ w = 0)))

theorem same_of_dvd {x : Nat} {v w : UInt16} (hv : 65535 ∣ x + v.toNat) (hw : 65535 ∣ x + w.toNat) :
    SameWord v w := by
  have hvlt := v.toNat_lt
  have hwlt := w.toNat_lt
  rcases eq_or_zero_of_dvd (by omega) (by omega) hv hw with h | ⟨h, h'⟩ | ⟨h, h'⟩
  · exact .inl (UInt16.toNat_inj.mp h)
  · exact .inr (.inl ⟨UInt16.toNat_inj.mp h, UInt16.toNat_inj.mp h'⟩)
  · exact .inr (.inr ⟨UInt16.toNat_inj.mp h, UInt16.toNat_inj.mp h'⟩)

/-- **Changed words are found.**  When a word of a packet, in the header of IP or in the segment, has
changed, the packet is not taken for a segment any more, unless the word is the other
representation of zero. -/
theorem changed_word_dropped {hostaddr : UipIpaddr} {pre post : List UInt8} {b0 b1 c0 c1 : UInt8}
    {uipLen : Nat} {seg : Segment} (heven : pre.length % 2 = 0)
    (hinside : pre.length + 2 ≤ lenAt (pre ++ b0 :: b1 :: post))
    (h : ipInput hostaddr (pre ++ b0 :: b1 :: post) uipLen = .tcp seg)
    (hchanged : ¬ SameWord (word b0 b1) (word c0 c1)) (seg' : Segment) :
    ipInput hostaddr (pre ++ c0 :: c1 :: post) uipLen ≠ .tcp seg' := by
  intro h'
  obtain ⟨hip, htcp, -⟩ := checks_of_received h
  obtain ⟨hip', htcp', -⟩ := checks_of_received h'
  by_cases hpos : pre.length < 20
  · -- in the header of IP
    rw [total_slice_word _ _ _ (Nat.zero_le _) (by omega) (by omega)] at hip hip'
    exact hchanged (same_of_dvd hip hip')
  · -- in the segment: the length and the addresses are the same
    have hsame : ∀ i, i < 20 →
        byteAt (pre ++ b0 :: b1 :: post) i = byteAt (pre ++ c0 :: c1 :: post) i :=
      fun i hi => byteAt_append_of_lt (by omega)
    have hlen : lenAt (pre ++ b0 :: b1 :: post) = lenAt (pre ++ c0 :: c1 :: post) := by
      rw [lenAt, lenAt, netAt, netAt, hsame 2 (by omega), hsame 3 (by omega)]
    have hupper : upperLayerLen (pre ++ b0 :: b1 :: post) =
        upperLayerLen (pre ++ c0 :: c1 :: post) := by
      rw [upperLayerLen, upperLayerLen, hsame 2 (by omega), hsame 3 (by omega)]
    have hupperLen : (upperLayerLen (pre ++ b0 :: b1 :: post)).toNat =
        lenAt (pre ++ b0 :: b1 :: post) - 20 := by
      have hlt := (netAt (pre ++ b0 :: b1 :: post) 2).toNat_lt
      change pre.length + 2 ≤ (netAt (pre ++ b0 :: b1 :: post) 2).toNat at hinside
      change (netAt (pre ++ b0 :: b1 :: post) 2 - UIP_IPH_LEN).toNat =
        (netAt (pre ++ b0 :: b1 :: post) 2).toNat - 20
      rw [UInt16.toNat_sub]
      change (2 ^ 16 - 20 + (netAt (pre ++ b0 :: b1 :: post) 2).toNat) % 2 ^ 16 = _
      omega
    have haddresses : Buffer.slice (pre ++ b0 :: b1 :: post) 12 8 =
        Buffer.slice (pre ++ c0 :: c1 :: post) 12 8 := by
      have htake : ∀ d0 d1, Buffer.slice (pre ++ d0 :: d1 :: post) 12 8 = (pre.drop 12).take 8 := by
        intro d0 d1
        rw [Buffer.slice, List.drop_append_of_le_length (by omega),
          List.take_append_of_le_length (by rw [List.length_drop]; omega)]
      rw [htake, htake]
    unfold pseudoTotal at htcp htcp'
    rw [← hupper, ← haddresses] at htcp'
    rw [total_slice_word (p := 20) _ _ _ (by omega) (by omega) (by omega), ← Nat.add_assoc]
      at htcp htcp'
    exact hchanged (same_of_dvd htcp htcp')

theorem changed_word_dropped_sample :
    ipInput (1, 2) ((tcpSendNoconn 7 sampleSyn).take 20 ++ 6 :: 0 ::
      (tcpSendNoconn 7 sampleSyn).drop 22) 40 ≠ .tcp { sampleSyn with srcport := 6 } := by
  have hreceived : ipInput (1, 2) ((tcpSendNoconn 7 sampleSyn).take 20 ++ 5 :: 0 ::
      (tcpSendNoconn 7 sampleSyn).drop 22) 40 = .tcp sampleSyn := by decide +kernel
  exact changed_word_dropped (by decide) (by decide) hreceived (by decide) _

/-! ## Answers to pings -/

theorem total_bytes16_modEq (v : UInt16) :
    total (Word.bytes16 v) ≡ 256 * v.toNat [MOD 65535] := by
  have hsplit : 256 * v.toNat = v.toNat % 256 * 256 + v.toNat / 256 + 65535 * (v.toNat / 256) := by
    omega
  rw [total_bytes16, hsplit, Nat.ModEq, Nat.add_mul_mod_self_left]

/-- Of the two sums that the code chooses from, the one with the carry. -/
theorem toNat_icmpReplyChksum (v : UInt16) :
    (icmpReplyChksum v).toNat ≡ v.toNat + 8 [MOD 65535] := by
  have hv := v.toNat_lt
  have hbound : htons ((0xffff : UInt16) - ICMP_ECHO.toUInt16 <<< 8) = 65527 := by decide
  have height : htons (ICMP_ECHO.toUInt16 <<< 8) = 8 := by decide
  have hnine : (8 + 1 : UInt16).toNat = 9 := by decide
  have h8 : (8 : UInt16).toNat = 8 := by decide
  have hmax : (65527 : UInt16).toNat = 65527 := by decide
  rw [icmpReplyChksum, hbound, height, Nat.ModEq]
  by_cases hle : (65527 : UInt16) ≤ v
  · have hle' := UInt16.le_iff_toNat_le.mp hle
    rw [hmax] at hle'
    rw [if_pos hle, UInt16.toNat_add, hnine]
    omega
  · have hle' := mt UInt16.le_iff_toNat_le.mpr hle
    rw [hmax] at hle'
    rw [if_neg hle, UInt16.toNat_add, h8]
    omega

/-- The checksum is as much more as the type is less. -/
theorem icmpReplyChksum_modEq (v : UInt16) :
    total (Word.bytes16 (icmpReplyChksum v)) ≡ total (Word.bytes16 v) + 2048 [MOD 65535] := by
  calc total (Word.bytes16 (icmpReplyChksum v))
      ≡ 256 * (icmpReplyChksum v).toNat [MOD 65535] := total_bytes16_modEq _
    _ ≡ 256 * (v.toNat + 8) [MOD 65535] := (toNat_icmpReplyChksum v).mul_left 256
    _ = 256 * v.toNat + 2048 := by omega
    _ ≡ total (Word.bytes16 v) + 2048 [MOD 65535] := (total_bytes16_modEq v).symm.add_right 2048

/-- `ipInput` answers a ping only to this host, whose header is right. -/
theorem ping_of_icmp {hostaddr : UipIpaddr} (hhost : hostaddr ≠ (0, 0)) {buf reply : List UInt8}
    {uipLen : Nat} (h : ipInput hostaddr buf uipLen = .icmp reply) :
    65535 ∣ total (Buffer.slice buf 0 20) ∧ (u16At buf 16, u16At buf 18) = hostaddr ∧
      byteAt buf 20 = ICMP_ECHO ∧ reply = (icmpReply hostaddr buf).take (lenAt buf) := by
  unfold ipInput at h
  split at h
  · cases h
  split at h
  · cases h
  split at h
  · cases h
  split at h
  · cases h
  next hdest =>
  unfold ipProto at h
  split at h
  · cases h
  next hip =>
  split at h
  · split at h <;> cases h
  split at h
  · cases h
  split at h
  · cases h
  split at h
  · cases h
  next htype =>
  cases h
  exact ⟨(uipIpchksum_eq_iff buf).mp (not_not.mp hip), not_not.mp hdest, not_not.mp htype, rfl⟩

theorem drop_eq_byteAt {buf : List UInt8} {i : Nat} (h : i < buf.length) :
    buf.drop i = byteAt buf i :: buf.drop (i + 1) := by
  rw [List.drop_eq_getElem_cons h, byteAt, List.getD_eq_getElem _ _ h]

/-- The message of a ping from its type on. -/
theorem drop_icmp {buf : List UInt8} (h : 24 ≤ buf.length) :
    buf.drop 20 = byteAt buf 20 :: byteAt buf 21 :: (Word.bytes16 (u16At buf 22) ++ buf.drop 24) := by
  rw [drop_eq_byteAt (by omega), drop_eq_byteAt (i := 20 + 1) (by omega),
    drop_eq_byteAt (i := 20 + 1 + 1) (by omega), drop_eq_byteAt (i := 20 + 1 + 1 + 1) (by omega),
    u16At, Word.bytes16_ofBytes16]
  rfl

/-- The destination of a packet that is for this host. -/
theorem slice_destipaddr {buf : List UInt8} {hostaddr : UipIpaddr} (h : 20 ≤ buf.length)
    (hdest : (u16At buf 16, u16At buf 18) = hostaddr) :
    Buffer.slice buf 16 4 = Word.bytes16 hostaddr.1 ++ Word.bytes16 hostaddr.2 := by
  rw [← hdest, Buffer.slice, drop_eq_byteAt (by omega), drop_eq_byteAt (i := 16 + 1) (by omega),
    drop_eq_byteAt (i := 16 + 1 + 1) (by omega), drop_eq_byteAt (i := 16 + 1 + 1 + 1) (by omega),
    u16At, u16At, Word.bytes16_ofBytes16, Word.bytes16_ofBytes16]
  rfl

/-- The parts of the reply. -/
theorem take_icmpReply {buf : List UInt8} {n : Nat} (hostaddr : UipIpaddr) (hn : 24 ≤ n)
    (hbuf : n ≤ buf.length) :
    (icmpReply hostaddr buf).take n =
      Buffer.slice buf 0 12 ++ ((Word.bytes16 hostaddr.1 ++ Word.bytes16 hostaddr.2) ++
        (Buffer.slice buf 12 4 ++ (ICMP_ECHO_REPLY :: byteAt buf 21 ::
          (Word.bytes16 (icmpReplyChksum (u16At buf 22)) ++ (buf.take n).drop 24)))) := by
  have h12 : (Buffer.slice buf 0 12).length = 12 := Buffer.slice_length (by omega)
  have h4 : (Buffer.slice buf 12 4).length = 4 := Buffer.slice_length (by omega)
  have hcount : n = (Buffer.slice buf 0 12 ++ (Word.bytes16 hostaddr.1 ++ Word.bytes16 hostaddr.2) ++
      Buffer.slice buf 12 4 ++ [ICMP_ECHO_REPLY, byteAt buf 21] ++
      Word.bytes16 (icmpReplyChksum (u16At buf 22))).length + (n - 24) := by
    simp only [List.length_append, h12, h4, Word.bytes16_length, List.length_cons, List.length_nil]
    omega
  rw [List.drop_take, icmpReply]
  conv_lhs => rw [hcount]
  rw [List.take_length_add_append]
  simp only [List.append_assoc, List.cons_append, List.nil_append]

/-- A sum that starts with nothing passes the strict check if it is a multiple of the largest word,
but not zero. -/
theorem chksum_eq_iff (data : List UInt8) :
    chksum 0 data = 0xffff ↔ 65535 ∣ total data ∧ total data ≠ 0 := by
  have hsum := toNat_chksum 0 data
  rw [UInt16.toNat_zero, Nat.zero_add] at hsum
  rw [← UInt16.toNat_inj, hsum]
  exact fold_eq_iff_dvd (by decide)

/-- The message of a ping that has been received. -/
theorem drop_ping {buf : List UInt8} {n : Nat} (hlen : 24 ≤ n) (hbuf : n ≤ buf.length)
    (htype : byteAt buf 20 = ICMP_ECHO) :
    (buf.take n).drop 20 = ICMP_ECHO :: byteAt buf 21 ::
      (Word.bytes16 (u16At buf 22) ++ (buf.take n).drop 24) := by
  have hbytes : ∀ i, i < 24 → byteAt (buf.take n) i = byteAt buf i := by
    intro i hi
    rw [byteAt, byteAt, List.getD_eq_getElem _ _ (by rw [List.length_take]; omega),
      List.getD_eq_getElem _ _ (by omega), List.getElem_take]
  rw [drop_icmp (by rw [List.length_take]; omega), u16At, hbytes 20 (by omega),
    hbytes 21 (by omega), hbytes 22 (by omega), hbytes (22 + 1) (by omega), htype, u16At]

/-- The reply is a multiple of the largest word when the ping is. -/
theorem total_reply_modEq (code : UInt8) (v : UInt16) (data : List UInt8) :
    total (ICMP_ECHO_REPLY :: code :: (Word.bytes16 (icmpReplyChksum v) ++ data)) ≡
      total (ICMP_ECHO :: code :: (Word.bytes16 v ++ data)) [MOD 65535] := by
  have hchk := icmpReplyChksum_modEq v
  have hreply : ICMP_ECHO_REPLY.toNat = 0 := rfl
  have hecho : ICMP_ECHO.toNat = 8 := rfl
  rw [total_pair, total_pair, total_bytes16_append, total_bytes16_append, hreply, hecho]
  calc 0 * 256 + code.toNat + (total (Word.bytes16 (icmpReplyChksum v)) + total data)
      ≡ 0 * 256 + code.toNat + (total (Word.bytes16 v) + 2048 + total data) [MOD 65535] :=
        (hchk.add_right _).add_left _
    _ = 8 * 256 + code.toNat + (total (Word.bytes16 v) + total data) := by omega

/-- **Answers to pings.**  The reply goes back to the sender with the data that has come; its header
passes the check, though the checksum is not computed anew; and its message passes the check if that
of the ping does, unless it consists of zeros only. -/
theorem icmp_reply {hostaddr : UipIpaddr} (hhost : hostaddr ≠ (0, 0)) {buf reply : List UInt8}
    {uipLen : Nat} (hlen : 24 ≤ lenAt buf) (hbuf : lenAt buf ≤ buf.length)
    (h : ipInput hostaddr buf uipLen = .icmp reply) :
    reply.length = lenAt buf ∧ Buffer.slice reply 0 12 = Buffer.slice buf 0 12 ∧
      Buffer.slice reply 12 4 = Buffer.slice buf 16 4 ∧
      Buffer.slice reply 16 4 = Buffer.slice buf 12 4 ∧ byteAt reply 20 = ICMP_ECHO_REPLY ∧
      reply.drop 24 = (buf.take (lenAt buf)).drop 24 ∧ uipIpchksum reply = 0xffff ∧
      (chksum 0 (reply.drop 20) = 0xffff ↔
        chksum 0 ((buf.take (lenAt buf)).drop 20) = 0xffff ∧ ∃ b ∈ reply.drop 20, b ≠ 0) := by
  obtain ⟨hip, hdest, htype, rfl⟩ := ping_of_icmp hhost h
  generalize lenAt buf = n at *
  rw [take_icmpReply hostaddr hlen hbuf, drop_ping hlen hbuf htype,
    ← slice_destipaddr (by omega) hdest]
  have hA : (Buffer.slice buf 0 12).length = 12 := Buffer.slice_length (by omega)
  have hS : (Buffer.slice buf 12 4).length = 4 := Buffer.slice_length (by omega)
  have hD : (Buffer.slice buf 16 4).length = 4 := Buffer.slice_length (by omega)
  have hdata : ((buf.take n).drop 24).length = n - 24 := by
    rw [List.length_drop, List.length_take_of_le hbuf]
  have hheader : Buffer.slice buf 0 20 =
      Buffer.slice buf 0 12 ++ (Buffer.slice buf 12 4 ++ Buffer.slice buf 16 4) := by
    have hsplit : buf.take (12 + (4 + 4)) =
        buf.take 12 ++ ((buf.drop 12).take 4 ++ (buf.drop (12 + 4)).take 4) := by
      rw [List.take_add, List.take_add, List.drop_drop]
    exact hsplit
  generalize Buffer.slice buf 0 12 = A at *
  generalize Buffer.slice buf 12 4 = S at *
  generalize Buffer.slice buf 16 4 = D at *
  generalize (buf.take n).drop 24 = data at *
  generalize hv : u16At buf 22 = v
  have hmod := total_reply_modEq (byteAt buf 21) v data
  -- where the parts of the reply begin
  have h12 : ∀ rest, (A ++ (D ++ (S ++ rest))).drop 12 = D ++ (S ++ rest) :=
    fun _ => List.drop_left' hA
  have h16 : ∀ rest, (A ++ (D ++ (S ++ rest))).drop 16 = S ++ rest := by
    intro rest
    rw [← List.drop_drop (i := 4) (j := 12), h12]
    exact List.drop_left' hD
  have h20 : ∀ rest, (A ++ (D ++ (S ++ rest))).drop 20 = rest := by
    intro rest
    rw [← List.drop_drop (i := 4) (j := 16), h16]
    exact List.drop_left' hS
  refine ⟨?_, List.take_left' hA, ?_, ?_, ?_, ?_, ?_, ?_⟩
  · simp only [List.length_append, List.length_cons, Word.bytes16_length, hA, hS, hD, hdata]
    omega
  · rw [Buffer.slice, h12]
    exact List.take_left' hD
  · rw [Buffer.slice, h16]
    exact List.take_left' hS
  · have htype' := congrArg List.head? (h20 (ICMP_ECHO_REPLY :: byteAt buf 21 ::
      (Word.bytes16 (icmpReplyChksum v) ++ data)))
    rw [List.head?_drop, List.head?_cons] at htype'
    rw [byteAt, List.getD_eq_getElem?_getD, htype']
    rfl
  · rw [← List.drop_drop (i := 4) (j := 20), h20]
    rfl
  · -- the sum of the header does not depend on the order of the addresses
    have htake : ∀ rest, Buffer.slice (A ++ (D ++ (S ++ rest))) 0 20 = A ++ (D ++ S) := by
      intro rest
      rw [Buffer.slice, List.drop_zero, ← List.append_assoc D, ← List.append_assoc A]
      exact List.take_left' (by simp only [List.length_append, hA, hS, hD])
    rw [hheader, total_append (by omega), total_append (by omega)] at hip
    rw [uipIpchksum_eq_iff, htake, total_append (by omega), total_append (by omega),
      Nat.add_comm (total D)]
    exact hip
  · have hping : total (ICMP_ECHO :: byteAt buf 21 :: (Word.bytes16 v ++ data)) ≠ 0 := by
      have hecho : ICMP_ECHO.toNat = 8 := rfl
      rw [total_pair, hecho]
      omega
    rw [h20, chksum_eq_iff, chksum_eq_iff, Nat.ModEq.dvd_iff hmod (dvd_refl _), Ne, total_eq_zero,
      and_iff_left hping]
    push Not
    rfl

def samplePing : List UInt8 :=
  [69, 0, 0, 28, 0, 1, 0, 0, 64, 1, 112, 225, 3, 0, 4, 0, 1, 0, 2, 0,
    8, 0, 247, 253, 0, 1, 0, 1]

theorem icmp_reply_sample :
    uipIpchksum (icmpReply (1, 2) samplePing) = 0xffff ∧
      chksum 0 ((icmpReply (1, 2) samplePing).drop 20) = 0xffff := by
  have hreply : ipInput (1, 2) samplePing 28 = .icmp (icmpReply (1, 2) samplePing) := by decide
  obtain ⟨-, -, -, -, -, -, hheader, hmessage⟩ :=
    icmp_reply (by decide) (by decide) (by decide) hreply
  exact ⟨hheader, hmessage.mpr ⟨by decide, by decide⟩⟩

end Tcp
