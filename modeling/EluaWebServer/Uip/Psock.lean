import EluaWebServer.Lib.Buffer

/-!
# Reading to a mark

`psock_readto` of uIP's protosockets collects what a connection receives, in as
many arrivals as it comes, up to a mark.  What does not fit into the buffer is
dropped.
-/

namespace Uip.Psock

open Buffer

/-- `struct psock_buf`, with the memory that `bufptr` points to.  `ptr` is as
far from its start as `left` is from `bufsize`. -/
structure PsockBuf where
  mem : List UInt8
  bufsize : Nat
  left : Nat

def bufSetup (mem : List UInt8) (bufsize : Nat) : PsockBuf :=
  ⟨mem, bufsize, bufsize⟩

/-- `*buf->ptr = c; ++buf->ptr; --buf->left`. -/
def PsockBuf.put (b : PsockBuf) (c : UInt8) : Option PsockBuf :=
  (store b.mem (b.bufsize - b.left) c).map fun mem => { b with mem := mem, left := b.left - 1 }

/-- `buf_bufto`: the buffer, the rest of the data, and whether the mark is
found. -/
def bufBufto (endmarker : UInt8) (b : PsockBuf) :
    List UInt8 → Option (PsockBuf × List UInt8 × Bool)
  | [] => some (b, [], false)
  | c :: data =>
      if b.left > 0 then
        (b.put c).bind fun b =>
          if c = endmarker then some (b, data, true) else bufBufto endmarker b data
      else if c = endmarker then some (b, data, true)
      else bufBufto endmarker b data

/-- How far a `psock_readto` has come: the buffer, the rest of the data that
has arrived, and what will arrive. -/
inductive Readto where
  | waiting
  | done (buf : PsockBuf) (data : List UInt8) (arrivals : List (List UInt8))

/-- The loop in `psock_readto`. -/
def readtoLoop (endmarker : UInt8) (b : PsockBuf) (data : List UInt8) :
    List (List UInt8) → Option Readto
  | [] =>
      (bufBufto endmarker b data).map fun (b, data, found) =>
        if found then .done b data [] else .waiting
  | d :: arrivals =>
      (bufBufto endmarker b data).bind fun (b, data, found) =>
        if found then some (.done b data (d :: arrivals))
        else readtoLoop endmarker b d arrivals

def psockReadto (mem : List UInt8) (bufsize : Nat) (endmarker : UInt8) (data : List UInt8)
    (arrivals : List (List UInt8)) : Option Readto :=
  readtoLoop endmarker (bufSetup mem bufsize) data arrivals

/-- `psock_datalen`. -/
def PsockBuf.datalen (b : PsockBuf) : Nat := b.bufsize - b.left

/-- The buffer after some more bytes, as far as they fit. -/
def PsockBuf.after (b : PsockBuf) (xs : List UInt8) : PsockBuf :=
  { b with mem := splice b.mem (b.bufsize - b.left) (xs.take b.left), left := b.left - xs.length }

/-- The buffer has the room that it says. -/
structure PsockBuf.Valid (b : PsockBuf) : Prop where
  left : b.left ≤ b.bufsize
  size : b.bufsize ≤ b.mem.length

variable {b : PsockBuf} {endmarker : UInt8} {data xs ys : List UInt8}

@[simp] theorem PsockBuf.after_nil (b : PsockBuf) : b.after [] = b := by
  simp [after, splice_nil]

theorem PsockBuf.Valid.after (h : b.Valid) (xs : List UInt8) : (b.after xs).Valid := by
  have hleft := h.left
  have hsize := h.size
  refine ⟨?_, ?_⟩
  · show b.left - xs.length ≤ b.bufsize
    omega
  · have hlen : (splice b.mem (b.bufsize - b.left) (xs.take b.left)).length = b.mem.length :=
      splice_length (by rw [List.length_take]; omega)
    exact Nat.le_trans hsize (Nat.le_of_eq hlen.symm)

theorem PsockBuf.after_after (h : b.Valid) (xs ys : List UInt8) :
    (b.after xs).after ys = b.after (xs ++ ys) := by
  have hleft := h.left
  have hsize := h.size
  have hcount : b.left - xs.length - ys.length = b.left - (xs ++ ys).length := by
    rw [List.length_append]
    omega
  have hmem : splice (splice b.mem (b.bufsize - b.left) (xs.take b.left))
      (b.bufsize - (b.left - xs.length)) (ys.take (b.left - xs.length)) =
      splice b.mem (b.bufsize - b.left) ((xs ++ ys).take b.left) := by
    rw [List.take_append]
    by_cases hfits : xs.length ≤ b.left
    · have hat : b.bufsize - (b.left - xs.length) = b.bufsize - b.left + xs.length := by omega
      rw [List.take_of_length_le hfits, hat]
      exact splice_splice xs _ (by omega)
    · have hzero : b.left - xs.length = 0 := by omega
      rw [hzero, List.take_zero, splice_nil, List.append_nil]
  simp only [after, hcount, hmem]

/-- A byte that fits. -/
theorem PsockBuf.put_eq (h : b.Valid) (hleft : 0 < b.left) (c : UInt8) :
    b.put c = some (b.after [c]) := by
  have hle := h.left
  have hsize := h.size
  have hat : b.bufsize - b.left < b.mem.length := by omega
  have hone : [c].take b.left = [c] := List.take_of_length_le hleft
  have hset : b.mem.set (b.bufsize - b.left) c = splice b.mem (b.bufsize - b.left) [c] := by
    rw [← splice_cons hat, splice_nil]
  simp only [put, store, if_pos hat, Option.map_some, after, hone, hset, List.length_singleton]

theorem PsockBuf.after_of_full (hfull : b.left = 0) (xs : List UInt8) : b.after xs = b := by
  obtain ⟨mem, bufsize, left⟩ := b
  obtain rfl : left = 0 := hfull
  simp only [after, List.take_zero, splice_nil, Nat.zero_sub]

/-- Data without the mark. -/
theorem bufBufto_not_found (h : b.Valid) (hdata : endmarker ∉ data) :
    bufBufto endmarker b data = some (b.after data, [], false) := by
  induction data generalizing b with
  | nil => rw [bufBufto, PsockBuf.after_nil]
  | cons c data ih =>
      rw [List.mem_cons, not_or] at hdata
      rw [bufBufto, if_neg (Ne.symm hdata.1)]
      split
      · rename_i hleft
        rw [PsockBuf.put_eq h hleft, Option.bind_some, if_neg (Ne.symm hdata.1),
          ih (h.after [c]) hdata.2, PsockBuf.after_after h]
        rfl
      · rename_i hfull
        have hzero : b.left = 0 := by omega
        rw [ih h hdata.2, PsockBuf.after_of_full hzero, PsockBuf.after_of_full hzero]

/-- Data with the mark. -/
theorem bufBufto_found (h : b.Valid) (hxs : endmarker ∉ xs) :
    bufBufto endmarker b (xs ++ endmarker :: ys) =
      some (b.after (xs ++ [endmarker]), ys, true) := by
  induction xs generalizing b with
  | nil =>
      rw [List.nil_append, List.nil_append, bufBufto, if_pos rfl]
      split
      · rename_i hleft
        rw [PsockBuf.put_eq h hleft, Option.bind_some, if_pos rfl]
      · rename_i hfull
        rw [PsockBuf.after_of_full (by omega)]
  | cons c xs ih =>
      rw [List.mem_cons, not_or] at hxs
      rw [List.cons_append, bufBufto, if_neg (Ne.symm hxs.1)]
      split
      · rename_i hleft
        rw [PsockBuf.put_eq h hleft, Option.bind_some, if_neg (Ne.symm hxs.1),
          ih (h.after [c]) hxs.2, PsockBuf.after_after h]
        rfl
      · rename_i hfull
        have hzero : b.left = 0 := by omega
        rw [ih h hxs.2, PsockBuf.after_of_full hzero, PsockBuf.after_of_full hzero]

/-- While the mark has not arrived. -/
theorem readtoLoop_waiting {arrivals : List (List UInt8)} (h : b.Valid)
    (hnot : endmarker ∉ data ++ arrivals.flatten) :
    readtoLoop endmarker b data arrivals = some .waiting := by
  induction arrivals generalizing b data with
  | nil =>
      rw [List.flatten_nil, List.append_nil] at hnot
      rw [readtoLoop, bufBufto_not_found h hnot]
      rfl
  | cons d arrivals ih =>
      rw [List.flatten_cons, List.mem_append, not_or] at hnot
      rw [readtoLoop, bufBufto_not_found h hnot.1]
      exact ih (h.after data) hnot.2

/-- Where the first mark is. -/
theorem append_mark_inj {xs' ys' : List UInt8} (hxs : endmarker ∉ xs) (hxs' : endmarker ∉ xs')
    (h : xs ++ endmarker :: ys = xs' ++ endmarker :: ys') : xs = xs' ∧ ys = ys' := by
  have hupto : ∀ (ws : List UInt8) {zs : List UInt8}, endmarker ∉ zs →
      (zs ++ endmarker :: ws).takeWhile (· ≠ endmarker) = zs := by
    intro ws zs hzs
    have hall : ∀ c ∈ zs, decide (c ≠ endmarker) = true := by
      intro c hc
      exact decide_eq_true fun heq => hzs (heq ▸ hc)
    rw [List.takeWhile_append_of_pos hall, List.takeWhile_cons_of_neg (by simp), List.append_nil]
  have heq : xs = xs' := by
    rw [← hupto ys hxs, h, hupto ys' hxs']
  subst heq
  exact ⟨rfl, List.tail_eq_of_cons_eq (List.append_cancel_left h)⟩

/-- **What `psock_readto` reads.**  However the stream arrives, the buffer holds
what comes up to the mark, as far as it fits, and what comes after the mark is
left. -/
theorem readtoLoop_done {arrivals : List (List UInt8)} (h : b.Valid)
    (hstream : data ++ arrivals.flatten = xs ++ endmarker :: ys) (hxs : endmarker ∉ xs) :
    ∃ data' arrivals', readtoLoop endmarker b data arrivals =
        some (.done (b.after (xs ++ [endmarker])) data' arrivals') ∧
      data' ++ arrivals'.flatten = ys := by
  induction arrivals generalizing b data xs with
  | nil =>
      rw [List.flatten_nil, List.append_nil] at hstream
      refine ⟨ys, [], ?_, by simp⟩
      rw [readtoLoop, hstream, bufBufto_found h hxs]
      rfl
  | cons d arrivals ih =>
      rw [List.flatten_cons] at hstream
      by_cases hdata : endmarker ∈ data
      · obtain ⟨before, rest, rfl, hbefore⟩ := List.eq_append_cons_of_mem hdata
        rw [List.append_assoc, List.cons_append] at hstream
        obtain ⟨rfl, rfl⟩ := append_mark_inj hbefore hxs hstream
        refine ⟨rest, d :: arrivals, ?_, by simp⟩
        rw [readtoLoop, bufBufto_found h hbefore]
        rfl
      · -- the mark is in a later arrival
        obtain ⟨zs, rfl⟩ : ∃ zs, xs = data ++ zs := by
          rcases List.append_eq_append_iff.mp hstream with ⟨zs, hzs, -⟩ | ⟨bs, rfl, hbs⟩
          · exact ⟨zs, hzs⟩
          · cases bs with
            | nil => exact ⟨[], by simp⟩
            | cons c bs =>
                obtain ⟨rfl, -⟩ := List.cons.inj hbs
                exact absurd (List.mem_append_right _ List.mem_cons_self) hdata
        rw [List.append_assoc, List.append_cancel_left_eq] at hstream
        rw [List.mem_append, not_or] at hxs
        obtain ⟨data', arrivals', hrun, hrest⟩ := ih (h.after data) hstream hxs.2
        refine ⟨data', arrivals', ?_, hrest⟩
        rw [PsockBuf.after_after h] at hrun
        rw [readtoLoop, bufBufto_not_found h hdata, List.append_assoc]
        exact hrun

end Uip.Psock
