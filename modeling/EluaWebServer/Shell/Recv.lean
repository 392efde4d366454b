import EluaWebServer.Xmodem.Duplicate

/-!
# Receiving a program

The `recv` command of the shell receives a file, leaves out the bytes that XMODEM pads it with,
and loads it.
-/

namespace Shell

open Xmodem

/-- The loop that goes back over the padding, with `n` bytes up to `p`.  What is in front of the
buffer has no result. -/
def stripPadding (shellProg : List UInt8) : Nat → Option Nat
  | 0 => none
  | n + 1 =>
      shellProg[n]?.bind fun c => if c = 0x1A then stripPadding shellProg n else some (n + 1)

/-- How `shell_recv` ends. -/
inductive Recv where
  | unableToAllocate
  | fileTooBig
  | xmodemError
  | unableToCreate (got : Nat)
  /-- The program is passed to `luaL_loadbuffer`. -/
  | loaded (program : List UInt8)
  | fault

/-- `shell_recv`, with what `malloc` returns and whether there is a Lua state. -/
def shellRecv (malloc : Option (Addr × Heap)) (peer : Peer) (a : Allocator) (n : Nat)
    (opened : Bool) : Option Recv :=
  match malloc with
  | none => some .unableToAllocate
  | some (dest, heap) =>
      (xmodemReceive peer a n (.start dest heap)).map fun
        | .returned actsize s =>
            if actsize < 0 then
              if actsize = XMODEM_ERROR_OUTOFMEM then .fileTooBig else .xmodemError
            else
              match s.heap s.dest with
              | none => .fault
              | some prog =>
                  match stripPadding prog actsize.toNat with
                  | none => .fault
                  | some len => if opened then .loaded (prog.take len) else .unableToCreate len
        | _ => .fault

/-- How many bytes at the end are padding. -/
def padding (bytes : List UInt8) : Nat := (bytes.reverse.takeWhile (· = 0x1A)).length

/-- What has been received is loaded without the padding at its end. -/
def Strips (dest : Addr) (heap : Heap) (peer : Peer) (a : Allocator) (n : Nat) (value : Int)
    (s : Receiver) : Prop :=
  ∃ prog len, s.heap s.dest = some prog ∧
    shellRecv (some (dest, heap)) peer a n true = some (.loaded (prog.take len)) ∧
    len ≤ value.toNat ∧ len + padding (prog.take value.toNat) = value.toNat

variable {prog : List UInt8} {n : Nat}

theorem padding_concat (bytes : List UInt8) (c : UInt8) :
    padding (bytes ++ [c]) = if c = 0x1A then padding bytes + 1 else 0 := by
  rw [padding, List.reverse_append, List.reverse_singleton, List.singleton_append,
    List.takeWhile_cons]
  by_cases hc : c = 0x1A
  · rw [if_pos (decide_eq_true hc), if_pos hc]
    rfl
  · rw [if_neg (by simpa using hc), if_neg hc]
    rfl

theorem padding_le (bytes : List UInt8) : padding bytes ≤ bytes.length := by
  have hle := (List.takeWhile_prefix (l := bytes.reverse)
    fun b : UInt8 => decide (b = 0x1A)).length_le
  rwa [List.length_reverse] at hle

/-- **The loop** stops behind the last byte that is no padding, and if there is none it leaves the
buffer. -/
theorem stripPadding_eq (hn : n ≤ prog.length) :
    stripPadding prog n =
      if ∃ b ∈ prog.take n, b ≠ 0x1A then some (n - padding (prog.take n)) else none := by
  induction n with
  | zero => rw [stripPadding, if_neg (by simp)]
  | succ n ih =>
      have hlt : n < prog.length := hn
      have htake : prog.take (n + 1) = prog.take n ++ [prog[n]] := by
        rw [List.take_add_one, List.getElem?_eq_getElem hlt]
        rfl
      rw [stripPadding, List.getElem?_eq_getElem hlt, Option.bind_some, htake, padding_concat]
      by_cases hc : prog[n] = 0x1A
      · have hiff : (∃ b ∈ prog.take n ++ [prog[n]], b ≠ 0x1A) ↔ ∃ b ∈ prog.take n, b ≠ 0x1A := by
          simp [hc]
        rw [if_pos hc, ih (Nat.le_of_lt hlt), if_pos hc]
        by_cases hsome : ∃ b ∈ prog.take n, b ≠ 0x1A
        · rw [if_pos hsome, if_pos (hiff.mpr hsome), Nat.add_sub_add_right]
        · rw [if_neg hsome, if_neg (mt hiff.mp hsome)]
      · have hsome : ∃ b ∈ prog.take n ++ [prog[n]], b ≠ 0x1A :=
          ⟨_, List.mem_append_right _ (List.mem_singleton_self _), hc⟩
        rw [if_neg hc, if_pos hsome, if_neg hc, Nat.sub_zero]

/-- **Padding.**  A file that has been received is loaded without its padding, exactly when it has a
byte that is no padding. -/
theorem strips_iff (peer : Peer) (a : Allocator) {dest : Addr} {heap : Heap} {block : List UInt8}
    (hblock : heap dest = some block) (hlen : block.length = XMODEM_INITIAL_BUFFER_SIZE.toNat)
    {n : Nat} {value : Int} {s : Receiver}
    (hreceive : xmodemReceive peer a n (.start dest heap) = some (.returned value s))
    (hvalue : 0 ≤ value) :
    Strips dest heap peer a n value s ↔ ∃ b ∈ payloads s.accepted, b ≠ 0x1A := by
  obtain ⟨value', s', heq, hreceived⟩ := xmodemReceive_ok (inv_start hblock hlen) hreceive
  obtain ⟨rfl, rfl⟩ := Turn.returned.inj heq
  obtain ⟨prog, hprog, hbytes⟩ := hreceived.live
  obtain ⟨hsize, htake⟩ := hbytes hvalue
  have hle : value.toNat ≤ prog.length := by
    have hlength := congrArg List.length htake
    rw [List.length_take] at hlength
    omega
  have hstrip := stripPadding_eq hle
  have hrecv : shellRecv (some (dest, heap)) peer a n true =
      match stripPadding prog value.toNat with
      | none => some .fault
      | some len => some (.loaded (prog.take len)) := by
    rw [shellRecv, hreceive, Option.map_some]
    dsimp only
    rw [if_neg (Int.not_lt.mpr hvalue), hprog]
    dsimp only
    cases stripPadding prog value.toNat with
    | none => rfl
    | some len => rfl
  rw [htake] at hstrip
  constructor
  · rintro ⟨prog', len, hprog', hloaded, -, -⟩
    by_contra hnone
    rw [hrecv, hstrip, if_neg hnone] at hloaded
    cases hloaded
  · intro hsome
    have hpadding := padding_le (payloads s.accepted)
    refine ⟨prog, value.toNat - padding (payloads s.accepted), hprog, ?_, Nat.sub_le _ _, ?_⟩
    · rw [hrecv, hstrip, if_pos hsome]
    · rw [htake]
      omega

theorem sendsAt_onePacket : SendsAt onePacket 0 (XM_SOH :: zeros) := by
  intro i c hi
  have hlt : i < 133 := (List.getElem?_eq_some_iff.mp hi).1
  have hpacket : (XM_SOH :: zeros).map some = (XM_SOH :: 1 :: 254 :: List.replicate 130 0).map some :=
    rfl
  rw [onePacket, Nat.zero_add, ← hpacket,
    List.getElem?_append_left (by simpa [zeros] using hlt), List.getElem?_map, hi]
  rfl

/-- What is returned when the end of the transmission comes after the packet of zeros. -/
theorem receive_first {peer : Peer} {a : Allocator} {s : Receiver} {start : Receiver}
    (hturn : turn peer a 1 start = some (.again s)) (hretries : s.retries = 20)
    (hsize : s.size = 128) (heot : peer s.pos = some XM_EOT)
    (hflush : xmodemFlush peer 1 (s.pos + 1) = some (s.pos + 2)) :
    ∃ s', xmodemReceive peer a 3 start = some (.returned 128 s') ∧ s'.accepted = s.accepted := by
  have hother : ¬(XM_EOT ≠ XM_SOH ∧ XM_EOT ≠ XM_EOT ∧ XM_EOT ≠ XM_CAN) := fun h => h.2.1 rfl
  have hlong : longOfU32 s.size = 128 := by
    rw [hsize]
    decide
  have hnext : turn peer a 1 s = finish peer 1 { s with
      retries := s.retries - 1
      sent := (if s.starting then s.sent ++ [0x43] else s.sent) ++ [XM_ACK]
      pos := s.pos + 1 } [] 128 := by
    rw [turn, if_neg (by omega)]
    dsimp only
    rw [heot]
    dsimp only
    rw [if_neg hother, if_pos rfl, hlong]
  rw [xmodemReceive, turn_succ hturn, Option.bind_some]
  dsimp only
  rw [xmodemReceive, hnext, finish, hflush]
  exact ⟨_, rfl, rfl⟩

theorem strips_iff_onePacket : ∃ s, xmodemReceive onePacket noMemory 3 (.start 0 oneBlock) =
    some (.returned 128 s) ∧ Strips 0 oneBlock onePacket noMemory 3 128 s := by
  have hblock : oneBlock 0 = some (List.replicate 1024 0) := rfl
  obtain ⟨s, hturn, haccepted, hpos, hretries, hsize⟩ := turn_first hblock List.length_replicate rfl
    (xmodemGetRecord_zeros sendsAt_onePacket) rfl
  obtain ⟨s', hreceive, haccepted'⟩ := receive_first hturn hretries hsize (hpos ▸ rfl) (hpos ▸ rfl)
  refine ⟨s', hreceive, (strips_iff onePacket noMemory hblock List.length_replicate hreceive
    (by decide)).mpr ⟨0, ?_, by decide⟩⟩
  have hpayloads : payloads [(0, zeros)] = payload zeros := List.append_nil _
  rw [haccepted', haccepted, hpayloads, payload_zeros]
  exact List.mem_replicate.mpr ⟨by decide, rfl⟩

/-- The end of the transmission comes at once. -/
def nothing : Peer := fun k => if k = 0 then some XM_EOT else none

/-- Nothing is received, and the loop reads in front of the buffer. -/
theorem not_strips_nothing : ∃ s, xmodemReceive nothing noMemory 2 (.start 0 oneBlock) =
    some (.returned 0 s) ∧ ¬ Strips 0 oneBlock nothing noMemory 2 0 s := by
  refine ⟨_, rfl, ?_⟩
  rintro ⟨prog, len, hprog, hloaded, -⟩
  cases hloaded

end Shell
