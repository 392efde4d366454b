import EluaWebServer.Lib.Buffer
import EluaWebServer.Lib.Transition
import Mathlib.Data.List.Infix

/-!
# Reading the console over TCP

`std_read` calls `elua_net_recv` until its buffer is full or a packet ends a line.  It counts
down the room in `len` and at the same time compares what has been received with it, and the
size of a packet is a signed number that is compared with unsigned ones.
-/

namespace StdTcp

open Buffer

def STD_CTRLZ_CODE : UInt8 := 26

def DM_STDIN_NUM : Int := 0

/-! ## Integers -/

/-- A `size_t` as an `elua_net_size`, which has 16 bits. -/
def netSize (n : UInt32) : Int :=
  if n.toNat % 65536 < 32768 then (n.toNat % 65536 : Nat) else (n.toNat % 65536 : Nat) - 65536

/-- An `elua_net_size` as a `size_t`. -/
def sizeT (n : Int) : UInt32 := UInt32.ofNat (n % 4294967296).toNat

/-- A `size_t` as a `_ssize_t`. -/
def ssizeT (n : UInt32) : Int :=
  if n.toNat < 2147483648 then n.toNat else (n.toNat : Int) - 4294967296

/-! ## One call -/

/-- What `elua_net_recv` does: it fills in some bytes, or returns -1. -/
inductive Answer where
  | packet (bytes : List UInt8)
  | error
  deriving DecidableEq

def Answer.bytes : Answer → List UInt8
  | .packet bytes => bytes
  | .error => []

def Answer.pktsize : Answer → Int
  | .packet bytes => bytes.length
  | .error => -1

inductive Status where
  | reading
  | returned (r : Int)
  /-- Memory outside of the buffer has been accessed. -/
  | outside
  deriving DecidableEq

/-- The variables of the call, and next to them the data of the packets so far and whether
there was an error. -/
structure Call where
  mem : List UInt8
  lptr : Nat
  len : UInt32
  actsize : UInt32
  status : Status
  got : List UInt8
  failed : Bool
  deriving DecidableEq

/-- The loop that looks for the end of the file, in the memory from `lptr` on. -/
def checkEof (pktsize : UInt32) : Nat → List UInt8 → Option Bool
  | j, [] => if j < pktsize.toNat then none else some false
  | j, b :: bs =>
      if j < pktsize.toNat then
        if b = STD_CTRLZ_CODE then some true else checkEof pktsize (j + 1) bs
      else some false

/-- The packet ends a line. -/
def finalPacket (mem : List UInt8) (lptr : Nat) (pktsize : Int) : Bool :=
  decide (2 ≤ pktsize) && decide (mem[lptr + (pktsize - 2).toNat]? = some 13) &&
    decide (mem[lptr + (pktsize - 1).toNat]? = some 10)

/-- A turn of the loop, when `elua_net_recv` has returned. -/
def Call.received (s : Call) (a : Answer) : Call :=
  let s := { s with got := s.got ++ a.bytes, failed := decide (a = Answer.error) }
  match storeAll s.mem s.lptr a.bytes with
  | none => { s with status := .outside }
  | some mem =>
      let s := { s with mem := mem }
      match checkEof (sizeT a.pktsize) 0 (mem.drop s.lptr) with
      | none => { s with status := .outside }
      | some true => { s with status := .returned 0 }
      | some false =>
          let actsize := s.actsize + sizeT a.pktsize
          if s.len ≤ actsize then
            { s with actsize := s.len, status := .returned (ssizeT s.len) }
          else if finalPacket mem s.lptr a.pktsize then
            { s with actsize := actsize, status := .returned (ssizeT actsize) }
          else
            { s with
              actsize := actsize
              lptr := (s.lptr + a.pktsize).toNat
              len := s.len - sizeT a.pktsize }

/-- The answers that `elua_net_recv` can give when it is asked for at most `len` bytes. -/
def Possible (s : Call) : Answer → Prop
  | .packet bytes => (bytes.length : Int) ≤ netSize s.len
  | .error => True

instance (s : Call) : (a : Answer) → Decidable (Possible s a)
  | .packet _ => inferInstanceAs (Decidable (_ ≤ _))
  | .error => inferInstanceAs (Decidable True)

/-- `std_read` goes on when `elua_net_recv` returns. -/
def step (s : Call) (a : Answer) : Option Call :=
  if s.status = .reading ∧ Possible s a then some (s.received a) else none

/-- `std_read` is called with a file number and a buffer, and there is a socket. -/
def stdRead (fd : Int) (mem : List UInt8) : Call :=
  ⟨mem, 0, UInt32.ofNat mem.length, 0, if fd = DM_STDIN_NUM then .reading else .returned (-1), [],
    false⟩

/-! ## What is meant -/

/-- The call waits for data behind what it has got, and not for more than there is room; or it
has returned how much it has got, or an error after an error. -/
def StatusRight (s : Call) : Status → Prop
  | .reading => s.failed = false ∧ s.lptr = s.got.length ∧
      netSize s.len ≤ s.mem.length - s.got.length
  | .returned r => r = s.got.length ∨ (s.failed = true ∧ r = -1)
  | .outside => False

/-- The data of the packets is in the buffer, in order. -/
structure Right (s : Call) : Prop where
  room : s.got.length ≤ s.mem.length
  stored : s.mem.take s.got.length = s.got
  status : StatusRight s s.status

/-- The answer is the last one that the call waits for. -/
def Ends (s : Call) (bytes : List UInt8) : Prop :=
  s.got.length + (s.got.length + bytes.length) = s.mem.length ∨ [13, 10] <:+ bytes

instance (s : Call) (bytes : List UInt8) : Decidable (Ends s bytes) :=
  inferInstanceAs (Decidable (_ ∨ _))

/-- The packet does not end the file, and what was there before it counts twice; an error
comes before any data, and there is something in the buffer that ends the file. -/
def Fine (s : Call) : Answer → Prop
  | .packet bytes => STD_CTRLZ_CODE ∉ bytes ∧
      s.got.length + (s.got.length + bytes.length) ≤ s.mem.length ∧
      (Ends s bytes → s.got.length + bytes.length < 2147483648)
  | .error => s.got = [] ∧ (STD_CTRLZ_CODE ∈ s.mem ∨ s.mem.length = 4294967295)

instance (s : Call) : (a : Answer) → Decidable (Fine s a)
  | .packet _ => inferInstanceAs (Decidable (_ ∧ _))
  | .error => inferInstanceAs (Decidable (_ ∧ _))

/-- The condition on an answer. -/
def Ok (s : Call) (a : Answer) : Prop := s.status = .reading → Possible s a → Fine s a

instance (s : Call) (a : Answer) : Decidable (Ok s a) :=
  inferInstanceAs (Decidable (_ → _ → _))

/-! ## One turn -/

/-- What holds of a call as long as it is right. -/
structure Inv (s : Call) : Prop where
  size : s.mem.length < 4294967296
  right : Right s
  len : s.status = .reading → s.len.toNat = s.mem.length - s.got.length
  actsize : s.status = .reading → s.actsize.toNat = s.got.length

section

variable {s : Call} {bytes xs : List UInt8}

theorem sizeT_natCast {n : Nat} (h : n < 4294967296) : (sizeT n).toNat = n := by
  have hmod : ((n : Int) % 4294967296).toNat = n := by omega
  rw [sizeT, hmod]
  exact UInt32.toNat_ofNat_of_lt' h

theorem sizeT_error : (sizeT (-1)).toNat = 4294967295 := by decide

theorem netSize_le (n : UInt32) : netSize n ≤ n.toNat := by
  have := Nat.mod_le n.toNat 65536
  unfold netSize
  split_ifs <;> omega

/-- The loop looks at as many bytes as it is told, up to the end of the file. -/
theorem checkEof_eq (pktsize : UInt32) (j : Nat) (xs : List UInt8) (hj : j ≤ pktsize.toNat) :
    checkEof pktsize j xs =
      if STD_CTRLZ_CODE ∈ xs.take (pktsize.toNat - j) then some true
      else if xs.length < pktsize.toNat - j then none else some false := by
  induction xs generalizing j with
  | nil =>
      rw [checkEof, List.take_nil, if_neg List.not_mem_nil, List.length_nil]
      by_cases h : j < pktsize.toNat
      · rw [if_pos h, if_pos (by omega)]
      · rw [if_neg h, if_neg (by omega)]
  | cons b xs ih =>
      rw [checkEof]
      by_cases h : j < pktsize.toNat
      · obtain ⟨n, hn⟩ : ∃ n, pktsize.toNat - j = n + 1 := ⟨pktsize.toNat - j - 1, by omega⟩
        have hrest : pktsize.toNat - (j + 1) = n := by omega
        rw [if_pos h, hn, List.take_succ_cons, ih (j + 1) h, hrest, List.length_cons]
        by_cases hb : b = STD_CTRLZ_CODE
        · rw [if_pos hb, if_pos (by rw [hb]; exact List.mem_cons_self)]
        · have hmem : STD_CTRLZ_CODE ∈ b :: xs.take n ↔ STD_CTRLZ_CODE ∈ xs.take n := by
            simp [Ne.symm hb]
          have hlt : xs.length + 1 < n + 1 ↔ xs.length < n := by omega
          rw [if_neg hb]
          simp only [hmem, hlt]
      · have hzero : pktsize.toNat - j = 0 := by omega
        rw [if_neg h, hzero, List.take_zero, if_neg List.not_mem_nil, if_neg (Nat.not_lt_zero _)]

theorem crlf_suffix_iff : [13, 10] <:+ bytes ↔ 2 ≤ bytes.length ∧
    bytes[bytes.length - 2]? = some 13 ∧ bytes[bytes.length - 1]? = some 10 := by
  constructor
  · intro h
    obtain ⟨front, rfl⟩ := h
    simp
  · intro h
    obtain ⟨hlen, h13, h10⟩ := h
    have hlt : bytes.length - 2 < bytes.length := by omega
    have hnext : bytes.length - 2 + 1 = bytes.length - 1 := by omega
    have hlt' : bytes.length - 2 + 1 < bytes.length := by omega
    have hend : bytes.length - 2 + 1 + 1 = bytes.length := by omega
    have h13' : bytes[bytes.length - 2] = 13 := by
      rw [List.getElem?_eq_getElem hlt] at h13
      exact Option.some.inj h13
    have h10' : bytes[bytes.length - 2 + 1] = 10 := by
      rw [← hnext, List.getElem?_eq_getElem hlt'] at h10
      exact Option.some.inj h10
    have hdrop : bytes.drop (bytes.length - 2) = [13, 10] := by
      rw [List.drop_eq_getElem_cons hlt, List.drop_eq_getElem_cons hlt', hend, List.drop_length,
        h13', h10']
    exact hdrop ▸ List.drop_suffix _ _

/-- What is in the memory behind the data so far is the packet. -/
theorem drop_splice_take {p : Nat} (hroom : p + bytes.length ≤ xs.length) :
    ((splice xs p bytes).drop p).take bytes.length = bytes :=
  slice_splice (by omega)

theorem finalPacket_iff {p : Nat} (hroom : p + bytes.length ≤ xs.length) :
    finalPacket (splice xs p bytes) p bytes.length = true ↔ [13, 10] <:+ bytes := by
  have hget : ∀ k, k < bytes.length → (splice xs p bytes)[p + k]? = bytes[k]? := by
    intro k hk
    rw [← List.getElem?_drop, ← List.getElem?_take_of_lt hk, drop_splice_take hroom]
  rw [crlf_suffix_iff, finalPacket, Bool.and_eq_true, Bool.and_eq_true, decide_eq_true_iff,
    decide_eq_true_iff, decide_eq_true_iff, and_assoc]
  by_cases hlen : 2 ≤ bytes.length
  · have h2 : ((bytes.length : Int) - 2).toNat = bytes.length - 2 := by omega
    have h1 : ((bytes.length : Int) - 1).toNat = bytes.length - 1 := by omega
    have hint : (2 : Int) ≤ bytes.length := by omega
    rw [h2, h1, hget _ (by omega), hget _ (by omega)]
    simp [hlen, hint]
  · apply iff_of_false
    · intro h
      omega
    · intro h
      exact hlen h.1

/-- The call after a packet, as far as it goes the same way whatever happens next. -/
def Call.filled (s : Call) (bytes : List UInt8) : Call :=
  { s with
    mem := splice s.mem s.got.length bytes
    got := s.got ++ bytes
    failed := false }

theorem filled_stored (hright : Right s) (hroom : s.got.length + bytes.length ≤ s.mem.length) :
    (s.filled bytes).got.length ≤ (s.filled bytes).mem.length ∧
      (s.filled bytes).mem.take (s.filled bytes).got.length = (s.filled bytes).got := by
  have hlen : (splice s.mem s.got.length bytes).length = s.mem.length := splice_length hroom
  constructor
  · change (s.got ++ bytes).length ≤ (splice s.mem s.got.length bytes).length
    rw [hlen, List.length_append]
    exact hroom
  · change (splice s.mem s.got.length bytes).take (s.got ++ bytes).length = s.got ++ bytes
    have htake := @take_splice _ s.mem s.got.length (by omega) bytes []
    rwa [List.append_nil, hright.stored, ← List.length_append] at htake

/-- A packet. -/
theorem received_packet (hinv : Inv s) (hreading : s.status = .reading)
    (hroom : s.got.length + bytes.length ≤ s.mem.length) :
    s.received (.packet bytes) =
      if STD_CTRLZ_CODE ∈ bytes then { s.filled bytes with status := .returned 0 }
      else if s.mem.length ≤ s.got.length + (s.got.length + bytes.length) then
        { s.filled bytes with actsize := s.len, status := .returned (ssizeT s.len) }
      else if [13, 10] <:+ bytes then
        { s.filled bytes with
          actsize := s.actsize + sizeT bytes.length
          status := .returned (ssizeT (s.actsize + sizeT bytes.length)) }
      else
        { s.filled bytes with
          actsize := s.actsize + sizeT bytes.length
          lptr := s.got.length + bytes.length
          len := s.len - sizeT bytes.length } := by
  have hsize := hinv.size
  have hstatus := hinv.right.status
  rw [hreading] at hstatus
  obtain ⟨-, hlptr, -⟩ := hstatus
  have hbytes : (sizeT bytes.length).toNat = bytes.length := sizeT_natCast (by omega)
  have hstore : storeAll s.mem s.lptr bytes = some (splice s.mem s.got.length bytes) := by
    rw [hlptr]
    exact storeAll_eq_splice hroom
  have hcheck : checkEof (sizeT bytes.length) 0 ((splice s.mem s.got.length bytes).drop s.lptr) =
      if STD_CTRLZ_CODE ∈ bytes then some true else some false := by
    have hlong : ¬((splice s.mem s.got.length bytes).drop s.got.length).length < bytes.length := by
      rw [List.length_drop, splice_length hroom]
      omega
    rw [checkEof_eq _ _ _ (Nat.zero_le _), hbytes, hlptr, Nat.sub_zero, drop_splice_take hroom,
      if_neg hlong]
  have hle : s.len ≤ s.actsize + sizeT bytes.length ↔
      s.mem.length ≤ s.got.length + (s.got.length + bytes.length) := by
    have hlen := hinv.len hreading
    have hact := hinv.actsize hreading
    rw [UInt32.le_iff_toNat_le, UInt32.toNat_add, hlen, hact, hbytes, Nat.mod_eq_of_lt (by omega)]
    omega
  have hfinal : finalPacket (splice s.mem s.got.length bytes) s.lptr bytes.length = true ↔
      [13, 10] <:+ bytes := by
    rw [hlptr]
    exact finalPacket_iff hroom
  have hnext : ((s.lptr : Int) + bytes.length).toNat = s.got.length + bytes.length := by omega
  unfold Call.received
  simp only [Answer.bytes, Answer.pktsize, hstore, hcheck]
  by_cases heof : STD_CTRLZ_CODE ∈ bytes
  · rw [if_pos heof, if_pos heof]
    rfl
  · rw [if_neg heof, if_neg heof]
    dsimp only
    simp only [hle, hfinal, hnext]
    rfl

theorem ssizeT_eq_iff (n : UInt32) (k : Nat) :
    ssizeT n = k ↔ n.toNat = k ∧ k < 2147483648 := by
  have := n.toNat_lt
  unfold ssizeT
  split_ifs <;> omega

/-- The call is over. -/
theorem inv_of_returned {s' : Call} (hsize : s'.mem.length < 4294967296) {r : Int}
    (hr : s'.status = .returned r) (hright : Right s') : Inv s' := by
  have hnot : s'.status ≠ .reading := by
    rw [hr]
    exact nofun
  exact ⟨hsize, hright, fun h => absurd h hnot, fun h => absurd h hnot⟩

/-- A call that returns after a packet is right if it returns what it has got. -/
theorem right_returned_iff {s' : Call} (hfailed : s'.failed = false) {r : Int}
    (hr : s'.status = .returned r) (hstored : s'.got.length ≤ s'.mem.length ∧
      s'.mem.take s'.got.length = s'.got) : Right s' ↔ r = s'.got.length := by
  constructor
  · intro hright
    have hstatus := hright.status
    rw [hr] at hstatus
    rcases hstatus with hstatus | hstatus
    · exact hstatus
    · rw [hfailed] at hstatus
      cases hstatus.1
  · intro heq
    refine ⟨hstored.1, hstored.2, ?_⟩
    rw [hr]
    exact .inl heq

/-- **A packet.** -/
theorem packet_spec (hinv : Inv s) (hreading : s.status = .reading)
    (hpossible : Possible s (.packet bytes)) :
    (Right (s.received (.packet bytes)) → Inv (s.received (.packet bytes))) ∧
      (Right (s.received (.packet bytes)) ↔ Fine s (.packet bytes)) := by
  have hlen := hinv.len hreading
  have hact := hinv.actsize hreading
  have hsize := hinv.size
  have hroom : s.got.length + bytes.length ≤ s.mem.length := by
    have hasked : (bytes.length : Int) ≤ netSize s.len := hpossible
    have hle := netSize_le s.len
    have hgot := hinv.right.room
    omega
  have hstored := filled_stored hinv.right hroom
  have hbytes : (sizeT bytes.length).toNat = bytes.length := sizeT_natCast (by omega)
  have hsize' : (s.filled bytes).mem.length < 4294967296 := by
    change (splice s.mem s.got.length bytes).length < 4294967296
    rw [splice_length hroom]
    exact hsize
  have hgot' : (s.filled bytes).got.length = s.got.length + bytes.length := List.length_append
  have hsum : (s.actsize + sizeT bytes.length).toNat = s.got.length + bytes.length := by
    rw [UInt32.toNat_add, hact, hbytes, Nat.mod_eq_of_lt (by omega)]
  rw [received_packet hinv hreading hroom]
  by_cases heof : STD_CTRLZ_CODE ∈ bytes
  · -- The end of the file: nothing is returned of what is there.
    rw [if_pos heof]
    refine ⟨inv_of_returned hsize' rfl, ?_⟩
    refine Iff.trans (right_returned_iff rfl rfl hstored) ?_
    apply iff_of_false
    · intro hzero
      have hpos := List.length_pos_of_mem heof
      change (0 : Int) = ((s.filled bytes).got.length : Int) at hzero
      rw [hgot'] at hzero
      omega
    · exact fun hfine => hfine.1 heof
  · rw [if_neg heof]
    have hfine : Fine s (.packet bytes) ↔
        s.got.length + (s.got.length + bytes.length) ≤ s.mem.length ∧
          (Ends s bytes → s.got.length + bytes.length < 2147483648) := and_iff_right heof
    rw [hfine]
    by_cases hfull : s.mem.length ≤ s.got.length + (s.got.length + bytes.length)
    · rw [if_pos hfull]
      refine ⟨inv_of_returned hsize' rfl, ?_⟩
      refine Iff.trans (right_returned_iff rfl rfl hstored) ?_
      change ssizeT s.len = ((s.filled bytes).got.length : Int) ↔ _
      rw [ssizeT_eq_iff, hgot', hlen]
      constructor
      · intro h
        exact ⟨by omega, fun _ => h.2⟩
      · intro h
        have heq : s.got.length + (s.got.length + bytes.length) = s.mem.length := by omega
        exact ⟨by omega, h.2 (.inl heq)⟩
    · rw [if_neg hfull]
      by_cases hfinal : [13, 10] <:+ bytes
      · rw [if_pos hfinal]
        refine ⟨inv_of_returned hsize' rfl, ?_⟩
        refine Iff.trans (right_returned_iff rfl rfl hstored) ?_
        change ssizeT (s.actsize + sizeT bytes.length) = ((s.filled bytes).got.length : Int) ↔ _
        rw [ssizeT_eq_iff, hgot', hsum]
        constructor
        · intro h
          exact ⟨by omega, fun _ => h.2⟩
        · intro h
          exact ⟨rfl, h.2 (.inr hfinal)⟩
      · -- The call goes on.
        rw [if_neg hfinal]
        have hlen' : (s.len - sizeT bytes.length).toNat =
            s.mem.length - (s.got.length + bytes.length) := by
          rw [UInt32.toNat_sub_of_le _ _ (by rw [UInt32.le_iff_toNat_le]; omega), hlen, hbytes]
          omega
        have hmem' : (s.filled bytes).mem.length = s.mem.length := splice_length hroom
        have hright : Right { s.filled bytes with
            actsize := s.actsize + sizeT bytes.length
            lptr := s.got.length + bytes.length
            len := s.len - sizeT bytes.length } := by
          refine ⟨hstored.1, hstored.2, ?_⟩
          change StatusRight _ s.status
          rw [hreading]
          refine ⟨rfl, hgot'.symm, ?_⟩
          change netSize (s.len - sizeT bytes.length) ≤
            ((s.filled bytes).mem.length : Int) - (s.filled bytes).got.length
          have hle := netSize_le (s.len - sizeT bytes.length)
          rw [hmem', hgot']
          omega
        refine ⟨fun _ => ⟨hsize', hright, fun _ => ?_, fun _ => ?_⟩, iff_of_true hright ?_⟩
        · change (s.len - sizeT bytes.length).toNat =
            (s.filled bytes).mem.length - (s.filled bytes).got.length
          rw [hlen', hmem', hgot']
        · exact hsum.trans hgot'.symm
        · refine ⟨by omega, ?_⟩
          intro hends
          rcases hends with heq | hcrlf
          · omega
          · exact absurd hcrlf hfinal

/-- **An error.** -/
theorem error_spec (hinv : Inv s) (hreading : s.status = .reading) :
    (Right (s.received .error) → Inv (s.received .error)) ∧
      (Right (s.received .error) ↔ Fine s .error) := by
  have hlen := hinv.len hreading
  have hact := hinv.actsize hreading
  have hsize := hinv.size
  have hgot := hinv.right.room
  have hstatus := hinv.right.status
  rw [hreading] at hstatus
  obtain ⟨-, hlptr, -⟩ := hstatus
  have hcheck := checkEof_eq (sizeT (-1)) 0 (s.mem.drop s.lptr) (Nat.zero_le _)
  rw [sizeT_error, Nat.sub_zero, List.take_of_length_le (by rw [List.length_drop]; omega)] at hcheck
  have hrest : (s.mem.drop s.lptr).length = s.mem.length - s.got.length := by
    rw [List.length_drop, hlptr]
  have hstored : s.got ++ [] = s.got := List.append_nil s.got
  unfold Call.received
  simp only [Answer.bytes, Answer.pktsize, storeAll, hstored]
  by_cases heof : STD_CTRLZ_CODE ∈ s.mem.drop s.lptr
  · -- Something that has been in the buffer before ends the file.
    rw [if_pos heof] at hcheck
    simp only [hcheck]
    have hright : Right { s with failed := decide (Answer.error = .error), status := .returned 0 } ↔
        (0 : Int) = s.got.length := by
      constructor
      · intro h
        rcases h.status with hzero | hminus
        · exact hzero
        · exact absurd hminus.2 (by decide)
      · intro h
        exact ⟨hgot, hinv.right.stored, .inl h⟩
    refine ⟨inv_of_returned hsize rfl, hright.trans ?_⟩
    constructor
    · intro hzero
      have hnil : s.got = [] := List.length_eq_zero_iff.mp (by omega)
      exact ⟨hnil, .inl (List.mem_of_mem_drop heof)⟩
    · intro hfine
      rw [hfine.1]
      rfl
  · rw [if_neg heof] at hcheck
    by_cases hshort : (s.mem.drop s.lptr).length < 4294967295
    · rw [if_pos hshort] at hcheck
      simp only [hcheck]
      refine ⟨fun hright => hright.status.elim, iff_of_false (fun hright => hright.status) ?_⟩
      intro hfine
      obtain ⟨hnil, hmem | hlong⟩ := hfine
      · rw [hlptr, hnil] at heof
        exact heof hmem
      · rw [hrest, hnil, List.length_nil] at hshort
        omega
    · -- As many bytes as a `size_t` can count.
      rw [if_neg hshort] at hcheck
      have hnil : s.got = [] := List.length_eq_zero_iff.mp (by omega)
      have hlong : s.mem.length = 4294967295 := by omega
      have hle : s.len ≤ s.actsize + sizeT (-1) := by
        rw [UInt32.le_iff_toNat_le, UInt32.toNat_add, hlen, hact, sizeT_error, hnil, hlong]
        decide
      have hreturn : ssizeT s.len = -1 := by
        rw [ssizeT, hlen, hlong, hnil]
        decide
      simp only [hcheck, if_pos hle]
      have hright : Right { s with
          actsize := s.len
          failed := decide (Answer.error = .error)
          status := .returned (ssizeT s.len) } := by
        refine ⟨hgot, hinv.right.stored, ?_⟩
        exact .inr ⟨rfl, hreturn⟩
      exact ⟨inv_of_returned hsize rfl, iff_of_true hright ⟨hnil, .inr hlong⟩⟩

theorem inv_stdRead {mem : List UInt8} (hsize : mem.length < 4294967296) :
    Inv (stdRead DM_STDIN_NUM mem) := by
  have hlen : (UInt32.ofNat mem.length).toNat = mem.length := UInt32.toNat_ofNat_of_lt' hsize
  have hasked := netSize_le (UInt32.ofNat mem.length)
  rw [hlen] at hasked
  refine ⟨hsize, ⟨Nat.zero_le _, List.take_zero, rfl, rfl, ?_⟩, fun _ => hlen, fun _ => rfl⟩
  exact Int.le_trans hasked (Int.le_of_eq (Int.sub_zero _).symm)

/-- **TCP console read.**  In all states of a call the data of the packets is in the buffer in
order, no more is asked for than there is room, and what is returned is how much has been
received, exactly if every packet and every error is fine when it comes. -/
theorem right_iff_ok {mem : List UInt8} (hsize : mem.length < 4294967296)
    (answers : List Answer) :
    (∀ n s, Transition.run step (stdRead DM_STDIN_NUM mem) (answers.take n) = some s → Right s) ↔
      Transition.Conforming step Ok (stdRead DM_STDIN_NUM mem) answers := by
  apply Transition.forall_states_iff_of_partial (fun _ h => h.right) _ (inv_stdRead hsize)
  intro s a hinv
  by_cases hgoes : s.status = .reading ∧ Possible s a
  · obtain ⟨hreading, hpossible⟩ := hgoes
    have hok : Ok s a ↔ Fine s a := by
      constructor
      · exact fun h => h hreading hpossible
      · exact fun h _ _ => h
    right
    refine ⟨s.received a, if_pos ⟨hreading, hpossible⟩, ?_⟩
    rw [hok]
    cases a with
    | packet bytes => exact packet_spec hinv hreading hpossible
    | error => exact error_spec hinv hreading
  · left
    exact ⟨if_neg hgoes, fun hreading hpossible => absurd ⟨hreading, hpossible⟩ hgoes⟩

end

/-! ## A line, and one in two packets -/

/-- Two packets that fill a buffer of six bytes, neither ending the line in front of the end. -/
theorem right_twoPackets :
    Transition.Conforming step Ok (stdRead DM_STDIN_NUM (List.replicate 6 0))
        [.packet [97, 98], .packet [13, 10]] ∧
      ∀ n s, Transition.run step (stdRead DM_STDIN_NUM (List.replicate 6 0))
        ([Answer.packet [97, 98], .packet [13, 10]].take n) = some s → Right s :=
  ⟨by decide, (right_iff_ok (by decide) _).mpr (by decide)⟩

/-- Three bytes and one for a buffer of four: the call says that it has read one. -/
theorem not_right_twoPackets :
    ∃ n s, Transition.run step (stdRead DM_STDIN_NUM (List.replicate 4 0))
      ([Answer.packet [97, 98, 99], .packet [100]].take n) = some s ∧ ¬Right s := by
  refine ⟨2, _, rfl, ?_⟩
  intro hright
  have hstatus : (1 : Int) = 4 ∨ (false = true ∧ (1 : Int) = -1) := hright.status
  revert hstatus
  decide

end StdTcp
