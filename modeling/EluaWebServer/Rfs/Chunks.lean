import EluaWebServer.Rfs.Client
import Mathlib.Algebra.Ring.Int.Defs
import Mathlib.Algebra.Ring.Nat

/-!
# Transfers in chunks

`rfs_read_r` and `rfs_write_r` move the bytes of a caller's buffer in chunks, each of which is
sized so that its packets fit the client's buffer.  They stop at the first chunk that fails or
moves less than was asked for.
-/

namespace Rfs

open Rpc Buffer

/-- `RFS_REAL_BUFFER_SIZE`, for any `RFS_BUFFER_SIZE`. -/
def RFS_REAL_BUFFER_SIZE (bufferSize : Nat) : Nat := 2 ^ bufferSize - ELUARPC_WRITE_REQUEST_EXTRA

/-- One call of `rfsc_read` or `rfsc_write`: where its part of the caller's buffer begins, how many
bytes are asked for, its result, and the bytes that are moved. -/
structure Chunk where
  offset : Nat
  count : UInt32
  res : Int32
  data : List UInt8

/-- The `k`-th call. -/
def Chunk.call (transfer : Nat → Nat → UInt32 → Int32 × List UInt8) (k p : Nat) (count : UInt32) :
    Chunk :=
  ⟨p, count, (transfer k p count).1, (transfer k p count).2⟩

/-- The loop that both functions have, for at most `n` rounds. -/
def chunkLoop (realSize : Nat) (transfer : Nat → Nat → UInt32 → Int32 × List UInt8) :
    Nat → Nat → UInt32 → Nat → Int32 → Option (Int32 × List Chunk)
  | 0, _, _, _, _ => none
  | n + 1, k, len, p, total =>
      if len = 0 then some (total, [])
      else
        let c := Chunk.call transfer k p
          (if realSize < len.toNat then realSize.toUInt32 else len)
        if c.res = -1 then some (total, [c])
        -- the comparison is one of unsigned numbers
        else if c.res.toUInt32 < c.count then some (total + c.res, [c])
        else
          (chunkLoop realSize transfer n (k + 1) (len - c.count) (p + c.count.toNat)
            (total + c.res)).map fun (total, cs) => (total, c :: cs)

/-- The call of `rfsc_write` for the `k`-th chunk, with its result.  The bytes that are written are
as many of its part of the caller's buffer as it returns. -/
def writeCall (ptr : List UInt8) (rfsc : Nat → UInt32 → Int32) (k p : Nat) (count : UInt32) :
    Int32 × List UInt8 :=
  (rfsc k count, (slice ptr p count.toNat).take (rfsc k count).toInt.toNat)

/-- The call of `rfsc_read` for the `k`-th chunk: what it copies to its part of the caller's
buffer, or `none` when it returns -1. -/
def readCall (rfsc : Nat → UInt32 → Option (List UInt8)) (k : Nat) (count : UInt32) :
    Int32 × List UInt8 :=
  match rfsc k count with
  | none => (-1, [])
  | some d => (Int32.ofNat d.length, d)

def rfsWriteR (bufferSize : Nat) (rfsc : Nat → UInt32 → Int32) (ptr : List UInt8) (len : UInt32) :
    Option (Int32 × List Chunk) :=
  chunkLoop (RFS_REAL_BUFFER_SIZE bufferSize) (writeCall ptr rfsc) (len.toNat + 1) 0 len 0 0

/-- The bytes of the chunks in the caller's buffer. -/
def storeChunks : List UInt8 → List Chunk → Option (List UInt8)
  | ptr, [] => some ptr
  | ptr, c :: cs => (storeAll ptr c.offset c.data).bind fun ptr => storeChunks ptr cs

/-- The result, the calls and the caller's buffer. -/
def rfsReadR (bufferSize : Nat) (rfsc : Nat → UInt32 → Option (List UInt8)) (ptr : List UInt8)
    (len : UInt32) : Option (Int32 × List Chunk × List UInt8) :=
  (chunkLoop (RFS_REAL_BUFFER_SIZE bufferSize) (fun k _ count => readCall rfsc k count)
    (len.toNat + 1) 0 len 0 0).bind fun (total, cs) =>
      (storeChunks ptr cs).map fun ptr => (total, cs, ptr)

/-! ## The chunks -/

/-- All that was asked for has been moved. -/
def Chunk.Full (c : Chunk) : Prop := c.data.length = c.count.toNat

/-- The chunks are consecutive slices of the caller's buffer from its start, as long as possible,
all but the last one are full, and if all of them are, nothing is left. -/
structure Chunked (realSize len : Nat) (cs : List Chunk) : Prop where
  slices : ∀ before c after, cs = before ++ c :: after →
    c.offset = (before.map fun c => c.count.toNat).sum ∧
      c.count.toNat = min realSize (len - c.offset) ∧ 0 < c.count.toNat
  full : ∀ before c after, cs = before ++ c :: after → after ≠ [] → c.Full
  complete : (∀ c ∈ cs, c.Full) → (cs.map fun c => c.count.toNat).sum = len

/-- What a call returns: -1, or the number of bytes it has moved. -/
def Chunk.Returned (c : Chunk) : Prop :=
  c.res = -1 ∧ c.data = [] ∨ c.res.toInt = c.data.length ∧ c.data.length ≤ c.count.toNat

/-- The chunks from a place in the caller's buffer on. -/
def Issued (realSize len : Nat) : Nat → List Chunk → Prop
  | p, [] => p = len
  | p, c :: cs =>
      c.offset = p ∧ c.count.toNat = min realSize (len - p) ∧ 0 < c.count.toNat ∧ c.Returned ∧
        (c.Full ∧ Issued realSize len (p + c.count.toNat) cs ∨ ¬ c.Full ∧ cs = [])

/-- The bytes that the chunks move. -/
def moved (cs : List Chunk) : List UInt8 := cs.flatMap Chunk.data

variable {realSize len : Nat} {transfer : Nat → Nat → UInt32 → Int32 × List UInt8}

/-- The calls return -1 or as many bytes as they move, at most those that were asked for. -/
def Honest (len : Nat) (transfer : Nat → Nat → UInt32 → Int32 × List UInt8) : Prop :=
  ∀ k p count, p + count.toNat ≤ len → (Chunk.call transfer k p count).Returned

theorem ne_neg_one_of_toInt {res : Int32} {n : Nat} (h : res.toInt = n) : res ≠ -1 := by
  rintro rfl
  have hneg : (-1 : Int32).toInt = -1 := rfl
  omega

theorem toUInt32_of_toInt {res : Int32} {n : Nat} (h : res.toInt = n) :
    res.toUInt32.toNat = n := by
  have hnonneg : 0 ≤ res := by
    rw [Int32.le_iff_toInt_le, h]
    exact Int.natCast_nonneg n
  rw [Int32.toNat_toUInt32_of_le hnonneg, ← Int32.toNat_toInt, h, Int.toNat_natCast]

theorem toInt_add_of_lt {a b : Int32} {m n : Nat} (ha : a.toInt = m) (hb : b.toInt = n)
    (hlt : m + n < 2 ^ 31) : (a + b).toInt = (m + n : Nat) := by
  rw [Int32.toInt_add, ha, hb, Int.bmod_eq_of_le (by omega) (by omega), Int.natCast_add]

/-- The length of the next chunk. -/
theorem count_toNat (realSize : Nat) (rest : UInt32) :
    (if realSize < rest.toNat then realSize.toUInt32 else rest).toNat =
      min realSize rest.toNat := by
  have hlt := rest.toNat_lt
  split
  · rename_i hmore
    have hreal : realSize.toUInt32.toNat = realSize := Nat.mod_eq_of_lt (Nat.lt_trans hmore hlt)
    omega
  · omega

/-- The call for the next chunk. -/
def nextCall (realSize : Nat) (transfer : Nat → Nat → UInt32 → Int32 × List UInt8) (k p : Nat)
    (rest : UInt32) : Chunk :=
  Chunk.call transfer k p (if realSize < rest.toNat then realSize.toUInt32 else rest)

section

variable {n k p : Nat} {rest : UInt32} {total : Int32}

theorem nextCall_spec (hreal : 0 < realSize) (htransfer : Honest len transfer)
    (hp : p + rest.toNat = len) (hrest : rest ≠ 0) :
    let c := nextCall realSize transfer k p rest
    c.offset = p ∧ c.count.toNat = min realSize (len - p) ∧ 0 < c.count.toNat ∧ c.Returned ∧
      (c.res, c.data) = transfer k c.offset c.count := by
  have hpos : 0 < rest.toNat := Nat.pos_of_ne_zero fun h => hrest (UInt32.toNat_inj.mp h)
  have hcount : (nextCall realSize transfer k p rest).count.toNat = min realSize rest.toNat :=
    count_toNat realSize rest
  refine ⟨rfl, by omega, by omega, htransfer k p _ ?_, rfl⟩
  rw [count_toNat]
  omega

/-- One round: the loop goes on after a full chunk, and returns after any other. -/
theorem chunkLoop_succ (hrest : rest ≠ 0) :
    let c := nextCall realSize transfer k p rest
    c.Returned → 0 < c.count.toNat →
    (c.Full ∧ c.res.toInt = c.data.length ∧
        chunkLoop realSize transfer (n + 1) k rest p total =
          (chunkLoop realSize transfer n (k + 1) (rest - c.count) (p + c.count.toNat)
            (total + c.res)).map fun (total, cs) => (total, c :: cs)) ∨
      ¬ c.Full ∧ ∃ total', chunkLoop realSize transfer (n + 1) k rest p total =
          some (total', [c]) ∧
        (total' = total ∧ c.data = [] ∨ total' = total + c.res ∧ c.res.toInt = c.data.length) := by
  intro c hreturned hpos
  rw [chunkLoop, if_neg hrest]
  rcases hreturned with ⟨hres, hnil⟩ | ⟨hres, hle⟩
  · have hshort : ¬ c.Full := by
      rw [Chunk.Full, hnil, List.length_nil]
      omega
    exact .inr ⟨hshort, total, if_pos hres, .inl ⟨rfl, hnil⟩⟩
  · have hmade : c.res ≠ -1 := ne_neg_one_of_toInt hres
    by_cases hfull : c.Full
    · have hnot : ¬ c.res.toUInt32 < c.count := by
        rw [UInt32.lt_iff_toNat_lt, toUInt32_of_toInt hres, hfull]
        exact Nat.lt_irrefl _
      exact .inl ⟨hfull, hres, (if_neg hmade).trans (if_neg hnot)⟩
    · have hless : c.res.toUInt32 < c.count := by
        rw [UInt32.lt_iff_toNat_lt, toUInt32_of_toInt hres]
        exact Nat.lt_of_le_of_ne hle hfull
      exact .inr ⟨hfull, total + c.res, (if_neg hmade).trans (if_pos hless), .inr ⟨rfl, hres⟩⟩

/-- **The loop.**  It ends, and issues the chunks from its place on. -/
theorem chunkLoop_spec (hreal : 0 < realSize) (hlen : len < 2 ^ 31)
    (htransfer : Honest len transfer) (hn : rest.toNat < n) (hp : p + rest.toNat = len)
    (htotal : total.toInt = p) :
    ∃ total' cs, chunkLoop realSize transfer n k rest p total = some (total', cs) ∧
      Issued realSize len p cs ∧ total'.toInt = (p + (moved cs).length : Nat) ∧
      ∀ c ∈ cs, ∃ k, (c.res, c.data) = transfer k c.offset c.count := by
  induction n generalizing k p rest total with
  | zero => exact absurd hn (Nat.not_lt_zero _)
  | succ n ih =>
      by_cases hrest : rest = 0
      · rw [chunkLoop, if_pos hrest]
        rw [hrest] at hp
        exact ⟨total, [], rfl, hp, htotal, fun c hc => absurd hc List.not_mem_nil⟩
      · obtain ⟨hoffset, hcount, hpos, hreturned, hcall⟩ :=
          nextCall_spec (k := k) hreal htransfer hp hrest
        have hround := @chunkLoop_succ realSize transfer n k p rest total hrest hreturned hpos
        generalize nextCall realSize transfer k p rest = c at *
        have hsum : c.res.toInt = c.data.length → c.data.length ≤ c.count.toNat →
            (total + c.res).toInt = (p + c.data.length : Nat) :=
          fun hres hle => toInt_add_of_lt htotal hres (by omega)
        rcases hround with ⟨hfull, hres, hloop⟩ | ⟨hshort, total', hloop, htotal'⟩
        · -- the rest of the bytes is what the remaining rounds are about
          have hless : (rest - c.count).toNat = rest.toNat - c.count.toNat :=
            UInt32.toNat_sub_of_le _ _ (by rw [UInt32.le_iff_toNat_le]; omega)
          have hsum := hsum hres hfull.le
          rw [hfull] at hsum
          obtain ⟨total', cs, htail, hissued, htotal', hcalls⟩ :=
            @ih (k + 1) (p + c.count.toNat) (rest - c.count) (total + c.res) (by omega)
              (by omega) hsum
          rw [hloop, htail]
          refine ⟨total', c :: cs, rfl,
            ⟨hoffset, hcount, hpos, hreturned, .inl ⟨hfull, hissued⟩⟩, ?_, ?_⟩
          · rw [htotal', moved, moved, List.flatMap_cons, List.length_append, hfull,
              Nat.add_assoc]
          · rintro d hd
            rcases List.mem_cons.mp hd with rfl | hd
            · exact ⟨k, hcall⟩
            · exact hcalls d hd
        · refine ⟨total', [c], hloop,
            ⟨hoffset, hcount, hpos, hreturned, .inr ⟨hshort, rfl⟩⟩, ?_, ?_⟩
          · rw [moved, List.flatMap_singleton]
            rcases htotal' with ⟨rfl, hnil⟩ | ⟨rfl, hres⟩
            · rw [hnil]
              exact htotal
            · rcases hreturned with ⟨-, hnil⟩ | ⟨-, hle⟩
              · exact hsum hres (hnil ▸ Nat.zero_le _)
              · exact hsum hres hle
          · rintro d hd
            obtain rfl := List.mem_singleton.mp hd
            exact ⟨k, hcall⟩

end

/-! ## Consecutive slices -/

section

variable {p : Nat} {cs before after : List Chunk} {c : Chunk}

theorem Issued.tail (h : Issued realSize len p (c :: cs)) (hne : cs ≠ []) :
    c.Full ∧ Issued realSize len (p + c.count.toNat) cs := by
  obtain ⟨-, -, -, -, hnext | ⟨-, hnil⟩⟩ := h
  · exact hnext
  · exact absurd hnil hne

theorem Issued.slices (h : Issued realSize len p (before ++ c :: after)) :
    c.offset = p + (before.map fun c => c.count.toNat).sum ∧
      c.count.toNat = min realSize (len - c.offset) ∧ 0 < c.count.toNat := by
  induction before generalizing p with
  | nil =>
      obtain ⟨rfl, hcount, hpos, -⟩ := h
      exact ⟨rfl, hcount, hpos⟩
  | cons b before ih =>
      obtain ⟨hoffset, hrest⟩ := ih (h.tail (List.append_ne_nil_of_right_ne_nil _ (by simp))).2
      rw [List.map_cons, List.sum_cons, ← Nat.add_assoc]
      exact ⟨hoffset, hrest⟩

theorem Issued.within (h : Issued realSize len p cs) (hc : c ∈ cs) :
    c.count.toNat ≤ realSize ∧ c.offset + c.count.toNat ≤ len := by
  obtain ⟨before, after, rfl⟩ := List.append_of_mem hc
  obtain ⟨-, hcount, hpos⟩ := h.slices
  omega

theorem Issued.full (h : Issued realSize len p (before ++ c :: after)) (hne : after ≠ []) :
    c.Full := by
  induction before generalizing p with
  | nil => exact (h.tail hne).1
  | cons b before ih =>
      exact ih (h.tail (List.append_ne_nil_of_right_ne_nil _ (by simp))).2

theorem Issued.complete (h : Issued realSize len p cs) (hfull : ∀ c ∈ cs, c.Full) :
    p + (cs.map fun c => c.count.toNat).sum = len := by
  induction cs generalizing p with
  | nil => exact h
  | cons c cs ih =>
      obtain ⟨-, -, -, -, ⟨-, hnext⟩ | ⟨hshort, -⟩⟩ := h
      · rw [List.map_cons, List.sum_cons, ← Nat.add_assoc]
        exact ih hnext fun d hd => hfull d (List.mem_cons_of_mem c hd)
      · exact absurd (hfull c List.mem_cons_self) hshort

theorem Issued.chunked (h : Issued realSize len 0 cs) : Chunked realSize len cs := by
  refine ⟨?_, ?_, fun hfull => ?_⟩
  · rintro before c after rfl
    have hslices := h.slices
    rwa [Nat.zero_add] at hslices
  · rintro before c after rfl hne
    exact h.full hne
  · rw [← h.complete hfull, Nat.zero_add]

theorem Issued.returned (h : Issued realSize len p cs) : ∀ c ∈ cs, c.Returned := by
  intro c hc
  induction cs generalizing p with
  | nil => exact absurd hc List.not_mem_nil
  | cons d cs ih =>
      obtain ⟨-, -, -, hreturned, hnext⟩ := h
      rcases List.mem_cons.mp hc with rfl | hc
      · exact hreturned
      · rcases hnext with ⟨-, hnext⟩ | ⟨-, rfl⟩
        · exact ih hnext hc
        · exact absurd hc List.not_mem_nil

/-- The results of the calls that do not fail. -/
def successes (cs : List Chunk) : Int := (cs.map fun c => if c.res = -1 then 0 else c.res.toInt).sum

theorem Issued.successes (h : Issued realSize len p cs) : successes cs = (moved cs).length := by
  have hreturned := h.returned
  clear h
  induction cs with
  | nil => rfl
  | cons c cs ih =>
      have htail := ih fun d hd => hreturned d (List.mem_cons_of_mem c hd)
      rw [Rfs.successes] at htail ⊢
      rw [List.map_cons, List.sum_cons, htail, moved, moved, List.flatMap_cons, List.length_append,
        Int.natCast_add]
      congr 1
      rcases hreturned c List.mem_cons_self with ⟨hres, hdata⟩ | ⟨hres, -⟩
      · rw [if_pos hres, hdata]
        rfl
      · rw [if_neg (ne_neg_one_of_toInt hres), hres]

/-! ## The bytes -/

/-- A chunk ends inside of the bytes that are asked for. -/
theorem Issued.data_le (h : Issued realSize len p (c :: cs)) :
    c.data.length ≤ c.count.toNat ∧ p + c.count.toNat ≤ len := by
  obtain ⟨-, hcount, hpos, hreturned, -⟩ := h
  refine ⟨?_, by omega⟩
  rcases hreturned with ⟨-, hdata⟩ | ⟨-, hle⟩
  · rw [hdata]
    exact Nat.zero_le _
  · exact hle

/-- Chunks whose bytes are the beginnings of their slices move a slice. -/
theorem Issued.moved_eq_slice {ptr : List UInt8} (h : Issued realSize len p cs)
    (hdata : ∀ c ∈ cs, c.data = slice ptr c.offset c.data.length) :
    moved cs = slice ptr p (moved cs).length := by
  induction cs generalizing p with
  | nil => rw [moved, List.flatMap_nil, List.length_nil, slice, List.take_zero]
  | cons c cs ih =>
      have hc := hdata c List.mem_cons_self
      obtain ⟨rfl, -, -, -, ⟨hfull, hnext⟩ | ⟨-, rfl⟩⟩ := h
      · have htail := ih hnext fun d hd => hdata d (List.mem_cons_of_mem c hd)
        rw [moved] at htail ⊢
        rw [List.flatMap_cons, List.length_append, slice, List.take_add, List.drop_drop]
        rw [← hfull] at htail
        exact congrArg₂ (· ++ ·) hc htail
      · rw [moved, List.flatMap_singleton]
        exact hc

/-- What the chunks of a read leave in the caller's buffer. -/
theorem Issued.storeChunks {ptr : List UInt8} (h : Issued realSize len p cs)
    (hptr : len ≤ ptr.length) : storeChunks ptr cs = some (splice ptr p (moved cs)) := by
  induction cs generalizing p ptr with
  | nil => rw [Rfs.storeChunks, moved, List.flatMap_nil, splice_nil]
  | cons c cs ih =>
      obtain ⟨hle, hend⟩ := h.data_le
      have hroom : p + c.data.length ≤ ptr.length := by omega
      obtain ⟨rfl, -, -, -, hnext⟩ := h
      rw [Rfs.storeChunks, storeAll_eq_splice hroom, Option.bind_some, moved, List.flatMap_cons]
      rcases hnext with ⟨hfull, hnext⟩ | ⟨-, rfl⟩
      · rw [ih hnext (by rwa [splice_length hroom]), ← hfull, splice_splice _ _ hroom]
        rfl
      · rw [Rfs.storeChunks, List.flatMap_nil, List.append_nil]

end

/-! ## The packets -/

/-- A request is written inside of a buffer. -/
def RequestInside (size : Nat) (request : List UInt8 → Option (List UInt8)) : Prop :=
  ∀ buf : List UInt8, buf.length = size → ∃ fs,
    request buf = some (packetBytes fs ++ buf.drop (packetSize fs)) ∧ packetSize fs ≤ size

/-- The packets of a chunk of `rfs_write_r`. -/
def WritePacketsFit (size : Nat) (ptr : List UInt8) (c : Chunk) : Prop :=
  (∀ fd, RequestInside size fun buf =>
      remotefsWriteWriteRequest buf fd (some (slice ptr c.offset c.count.toNat)) c.count) ∧
    ∀ n, packetSize [.response 2, .int32 n] ≤ size

/-- The packets of a chunk of `rfs_read_r`; the response is one with all bytes asked for. -/
def ReadPacketsFit (size : Nat) (c : Chunk) : Prop :=
  (∀ fd, RequestInside size fun buf => remotefsReadWriteRequest buf fd c.count) ∧
    ∀ d : List UInt8, d.length = c.count.toNat → packetSize [.response 3, .ptr d] ≤ size

section

variable {bufferSize : Nat} {c : Chunk}

theorem realSize_pos (hbuffer : 6 ≤ bufferSize) :
    0 < RFS_REAL_BUFFER_SIZE bufferSize ∧
      RFS_REAL_BUFFER_SIZE bufferSize + 29 = 2 ^ bufferSize := by
  have hpow : 2 ^ 6 ≤ 2 ^ bufferSize := Nat.pow_le_pow_right (by decide) hbuffer
  unfold RFS_REAL_BUFFER_SIZE ELUARPC_WRITE_REQUEST_EXTRA
  omega

theorem writePacketsFit (hbuffer : 6 ≤ bufferSize)
    (hcount : c.count.toNat ≤ RFS_REAL_BUFFER_SIZE bufferSize) {ptr : List UInt8}
    (hptr : c.offset + c.count.toNat ≤ ptr.length) :
    WritePacketsFit (2 ^ bufferSize) ptr c := by
  obtain ⟨hpos, hsize⟩ := realSize_pos hbuffer
  have hlen := slice_length hptr
  refine ⟨fun fd buf hbuf => ?_, fun n => ?_⟩
  · have hfields : fields? ['o', 'i', 'p'] [.int RFS_OP_WRITE, .int fd,
        .ptr (some (slice ptr c.offset c.count.toNat)), .int c.count] =
        some [.op 2, .int32 fd, .ptr (slice ptr c.offset c.count.toNat)] := by
      simp [fields?, field?, hlen, RFS_OP_WRITE, List.take_of_length_le]
    have hfits : packetSize [.op 2, .int32 fd, .ptr (slice ptr c.offset c.count.toNat)] ≤
        2 ^ bufferSize := by
      simp [packetSize, fieldsBytes, Field.bytes, hlen]
      omega
    exact ⟨_, eluarpcGenWrite_eq hfields (hbuf ▸ hfits), hfits⟩
  · simp [packetSize, fieldsBytes, Field.bytes]
    omega

theorem readPacketsFit (hbuffer : 6 ≤ bufferSize)
    (hcount : c.count.toNat ≤ RFS_REAL_BUFFER_SIZE bufferSize) :
    ReadPacketsFit (2 ^ bufferSize) c := by
  obtain ⟨hpos, hsize⟩ := realSize_pos hbuffer
  refine ⟨fun fd buf hbuf => ?_, fun d hd => ?_⟩
  · have hfits : packetSize [.op 3, .int32 fd, .int32 c.count] ≤ 2 ^ bufferSize := by
      simp [packetSize, fieldsBytes, Field.bytes]
      omega
    exact ⟨_, eluarpcGenWrite_eq rfl (hbuf ▸ hfits), hfits⟩
  · simp [packetSize, fieldsBytes, Field.bytes, hd]
    omega

end

/-! ## The two functions -/

section

variable {bufferSize : Nat} {ptr : List UInt8} {len : UInt32}

/-- A call of `rfsc_write` returns -1 or at most what it was given. -/
def WriteResults (rfsc : Nat → UInt32 → Int32) : Prop :=
  ∀ k count, rfsc k count = -1 ∨
    0 ≤ (rfsc k count).toInt ∧ (rfsc k count).toInt ≤ count.toNat

/-- A call of `rfsc_read` fails or copies at most what was asked for. -/
def ReadResults (rfsc : Nat → UInt32 → Option (List UInt8)) : Prop :=
  ∀ k count d, rfsc k count = some d → d.length ≤ count.toNat

theorem honest_writeCall {n : Nat} (hn : n ≤ ptr.length) {rfsc : Nat → UInt32 → Int32}
    (hrfsc : WriteResults rfsc) : Honest n (writeCall ptr rfsc) := by
  intro k p count hp
  have hslice : (slice ptr p count.toNat).length = count.toNat := slice_length (by omega)
  rcases hrfsc k count with hres | ⟨hge, hle⟩
  · left
    refine ⟨hres, ?_⟩
    change (slice ptr p count.toNat).take (rfsc k count).toInt.toNat = []
    rw [hres]
    exact List.take_zero
  · right
    have hdata : ((slice ptr p count.toNat).take (rfsc k count).toInt.toNat).length =
        (rfsc k count).toInt.toNat := by
      rw [List.length_take, hslice]
      omega
    refine ⟨?_, hdata.trans_le (Int.toNat_le.mpr hle)⟩
    change (rfsc k count).toInt =
      ((slice ptr p count.toNat).take (rfsc k count).toInt.toNat).length
    rw [hdata, Int.toNat_of_nonneg hge]

section

variable {rfsc : Nat → UInt32 → Option (List UInt8)} {k : Nat} {count : UInt32}

theorem readCall_none (h : rfsc k count = none) : readCall rfsc k count = (-1, []) := by
  rw [readCall, h]

theorem readCall_some {d : List UInt8} (h : rfsc k count = some d) :
    readCall rfsc k count = (Int32.ofNat d.length, d) := by
  rw [readCall, h]

end

theorem honest_readCall {n : Nat} (hn : n < 2 ^ 31) {rfsc : Nat → UInt32 → Option (List UInt8)}
    (hrfsc : ReadResults rfsc) : Honest n fun k _ count => readCall rfsc k count := by
  intro k p count hp
  rw [Chunk.call]
  cases hcall : rfsc k count with
  | none =>
      rw [readCall_none hcall]
      exact .inl ⟨rfl, rfl⟩
  | some d =>
      have hle := hrfsc k count d hcall
      rw [readCall_some hcall]
      exact .inr ⟨Int32.toInt_ofNat_of_lt (by omega), hle⟩

theorem rfsWriteR_spec (hbuffer : 6 ≤ bufferSize) {rfsc : Nat → UInt32 → Int32}
    (hrfsc : WriteResults rfsc) (hlen : len.toNat < 2 ^ 31) (hptr : len.toNat ≤ ptr.length) :
    ∃ total cs, rfsWriteR bufferSize rfsc ptr len = some (total, cs) ∧
      Issued (RFS_REAL_BUFFER_SIZE bufferSize) len.toNat 0 cs ∧
      total.toInt = (moved cs).length ∧ moved cs = ptr.take (moved cs).length := by
  have hzero : (0 : Int32).toInt = (0 : Nat) := rfl
  obtain ⟨total, cs, hloop, hissued, htotal, hcalls⟩ := chunkLoop_spec (realSize_pos hbuffer).1
    hlen (honest_writeCall hptr hrfsc) (k := 0) (Nat.lt_succ_self _) (Nat.zero_add _) hzero
  rw [Nat.zero_add] at htotal
  refine ⟨total, cs, hloop, hissued, htotal, ?_⟩
  refine hissued.moved_eq_slice fun c hc => ?_
  obtain ⟨k, hcall⟩ := hcalls c hc
  obtain ⟨hres, hdata⟩ := Prod.mk.inj hcall
  rw [slice]
  rcases hissued.returned c hc with ⟨-, hnil⟩ | ⟨hlength, hle⟩
  · rw [hnil, List.length_nil, List.take_zero]
  · rw [← hres, hlength, Int.toNat_natCast, slice, List.take_take, Nat.min_eq_left hle] at hdata
    exact hdata

theorem rfsReadR_spec (hbuffer : 6 ≤ bufferSize) {rfsc : Nat → UInt32 → Option (List UInt8)}
    (hrfsc : ReadResults rfsc) (hlen : len.toNat < 2 ^ 31) (hptr : len.toNat ≤ ptr.length) :
    ∃ total cs ptr', rfsReadR bufferSize rfsc ptr len = some (total, cs, ptr') ∧
      Issued (RFS_REAL_BUFFER_SIZE bufferSize) len.toNat 0 cs ∧
      total.toInt = (moved cs).length ∧ ptr' = moved cs ++ ptr.drop (moved cs).length := by
  have hzero : (0 : Int32).toInt = (0 : Nat) := rfl
  obtain ⟨total, cs, hloop, hissued, htotal, -⟩ := chunkLoop_spec (realSize_pos hbuffer).1
    hlen (honest_readCall hlen hrfsc) (k := 0) (Nat.lt_succ_self _) (Nat.zero_add _) hzero
  rw [Nat.zero_add] at htotal
  refine ⟨total, cs, _, ?_, hissued, htotal, rfl⟩
  rw [rfsReadR, hloop, Option.bind_some]
  dsimp only
  rw [hissued.storeChunks hptr]
  simp only [splice, List.take_zero, List.nil_append, Nat.zero_add, Option.map_some]

/-- **Transfers in chunks.**  Whatever the single calls return, both functions end.  The chunks
are consecutive slices from the beginning of the caller's buffer, with none after a short or failed
one; the sum of their results is returned, and just that many bytes of the buffer are moved.  All
packets fit the client's buffer. -/
theorem transfers_chunked (hbuffer : 6 ≤ bufferSize) (hlen : len.toNat < 2 ^ 31)
    (hptr : len.toNat ≤ ptr.length) :
    (∀ rfsc, WriteResults rfsc → ∃ total cs,
      rfsWriteR bufferSize rfsc ptr len = some (total, cs) ∧
        Chunked (RFS_REAL_BUFFER_SIZE bufferSize) len.toNat cs ∧
        total.toInt = successes cs ∧ moved cs = ptr.take total.toInt.toNat ∧
        ∀ c ∈ cs, WritePacketsFit (2 ^ bufferSize) ptr c) ∧
    ∀ rfsc, ReadResults rfsc → ∃ total cs ptr',
      rfsReadR bufferSize rfsc ptr len = some (total, cs, ptr') ∧
        Chunked (RFS_REAL_BUFFER_SIZE bufferSize) len.toNat cs ∧
        total.toInt = successes cs ∧ ptr' = moved cs ++ ptr.drop total.toInt.toNat ∧
        ∀ c ∈ cs, ReadPacketsFit (2 ^ bufferSize) c := by
  constructor
  · intro rfsc hrfsc
    obtain ⟨total, cs, hrun, hissued, htotal, hmoved⟩ := rfsWriteR_spec hbuffer hrfsc hlen hptr
    refine ⟨total, cs, hrun, hissued.chunked, htotal.trans hissued.successes.symm, ?_, ?_⟩
    · rwa [htotal, Int.toNat_natCast]
    · intro c hc
      obtain ⟨hcount, hend⟩ := hissued.within hc
      exact writePacketsFit hbuffer hcount (hend.trans hptr)
  · intro rfsc hrfsc
    obtain ⟨total, cs, ptr', hrun, hissued, htotal, hptr'⟩ :=
      rfsReadR_spec hbuffer hrfsc hlen hptr
    refine ⟨total, cs, ptr', hrun, hissued.chunked, htotal.trans hissued.successes.symm, ?_, ?_⟩
    · rwa [htotal, Int.toNat_natCast]
    · exact fun c hc => readPacketsFit hbuffer (hissued.within hc).1

/-- Eighty bytes with a buffer of 64, in three chunks at most. -/
theorem transfers_chunked_eighty :
    (∀ rfsc, WriteResults rfsc → ∃ total cs,
      rfsWriteR 6 rfsc (List.replicate 80 7) 80 = some (total, cs) ∧
        Chunked 35 80 cs ∧ total.toInt = successes cs ∧
        moved cs = (List.replicate 80 7).take total.toInt.toNat ∧
        ∀ c ∈ cs, WritePacketsFit 64 (List.replicate 80 7) c) ∧
    ∀ rfsc, ReadResults rfsc → ∃ total cs ptr',
      rfsReadR 6 rfsc (List.replicate 80 7) 80 = some (total, cs, ptr') ∧
        Chunked 35 80 cs ∧ total.toInt = successes cs ∧
        ptr' = moved cs ++ (List.replicate 80 7).drop total.toInt.toNat ∧
        ∀ c ∈ cs, ReadPacketsFit 64 c :=
  @transfers_chunked 6 _ 80 (by decide) (by decide) (by decide)

example : rfsWriteR 6 (fun k _ => if k = 1 then 20 else 35) (List.replicate 80 7) 80 =
    some (55, [⟨0, 35, 35, List.replicate 35 7⟩, ⟨35, 35, 20, List.replicate 20 7⟩]) := rfl

end

end Rfs
