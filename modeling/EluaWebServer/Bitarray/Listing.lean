import EluaWebServer.Bitarray.Elements
import EluaWebServer.Lib.CString

/-!
# Listing an array

The loops go on until an index is behind the last element, which in 32 bits need not happen; they
get a number of iterations.
-/

namespace Bitarray

/-- Lua iterator: the next index with its element, unless there is none. -/
def bitarrayIter (little : Bool) (pa : Array) (control : Int) : Except Stop (Option (Nat × Nat)) :=
  let idx := unsigned 32 (control + 1)
  if idx ≤ pa.capacity then
    (bitarrayGetval little pa idx).elim (.error .fault) fun val => .ok (some (idx, val))
  else .ok none

/-- What a `for` loop over `pairs` gets, from a value of its control variable on. -/
def bitarrayPairs (little : Bool) (pa : Array) : Nat → Int → Except Stop (List (Nat × Nat))
  | 0, _ => .error .running
  | fuel + 1, control =>
      (bitarrayIter little pa control).bind fun
        | none => .ok []
        | some (idx, val) => (bitarrayPairs little pa fuel idx).map ((idx, val) :: ·)

/-- The elements from an index on. -/
def unpackSeq (little : Bool) (pa : Array) : Nat → Nat → Except Stop (List Nat)
  | 0, _ => .error .running
  | fuel + 1, idx =>
      if idx ≤ pa.capacity then
        (bitarrayGetval little pa idx).elim (.error .fault) fun val =>
          (unpackSeq little pa fuel (u32 (idx + 1))).map (val :: ·)
      else .ok []

/-- The bytes as they are. -/
def unpackRaw (pa : Array) : Except Stop (List UInt8) :=
  let total := roundSize (u32 (pa.capacity * pa.elsize))
  if total ≤ pa.values.length then .ok (pa.values.take total) else .error .fault

/-- Unpack modes. -/
inductive Mode where
  | BITARRAY_UNPACK_RAW
  | BITARRAY_UNPACK_SEQ
  deriving DecidableEq

def rawText : List UInt8 := [0x72, 0x61, 0x77]
def seqText : List UInt8 := [0x73, 0x65, 0x71]

/-- The mode, for a second argument that is a string or none. -/
def unpackMode (ptextmode : Option (List UInt8)) : Except Stop Mode :=
  match ptextmode with
  | none => .ok .BITARRAY_UNPACK_SEQ
  | some text =>
      if CString.text text = rawText then .ok .BITARRAY_UNPACK_RAW
      else if CString.text text = seqText then .ok .BITARRAY_UNPACK_SEQ
      else .error (.error "invalid mode string.")

/-- `bitarray.totable( array, ["raw"|"seq"] )`. -/
def bitarrayTotable (little : Bool) (fuel : Nat) (pa : Array) (ptextmode : Option (List UInt8)) :
    Except Stop (List Nat) :=
  (unpackMode ptextmode).bind fun mode =>
    if mode = .BITARRAY_UNPACK_SEQ ∧ 8 < pa.elsize then
      .error (.error "element size too large.")
    else if mode = .BITARRAY_UNPACK_SEQ then unpackSeq little pa fuel 1
    else (unpackRaw pa).map (·.map UInt8.toNat)

/-- `bitarray.tostring( array, ["raw"|"seq"] )`. -/
def bitarrayTostring (little : Bool) (fuel : Nat) (pa : Array) (ptextmode : Option (List UInt8)) :
    Except Stop (List UInt8) :=
  (unpackMode ptextmode).bind fun mode =>
    if mode = .BITARRAY_UNPACK_SEQ ∧ 8 < pa.elsize then
      .error (.error "element size too large.")
    else if mode = .BITARRAY_UNPACK_SEQ then
      (unpackSeq little pa fuel 1).map (·.map UInt8.ofNat)
    else unpackRaw pa

variable {little : Bool} {a : Array} {idx : Nat}

/-- The indexes that the loops come to: those of elements, and 0 when it comes after all others. -/
structure Reached (a : Array) (idx : Nat) : Prop where
  le : idx ≤ a.capacity
  pos : idx = 0 → a.capacity = 2 ^ 32 - 1

/-- An index behind a reached one is reached, if it is not behind the last element. -/
theorem Reached.next (ha : a.WellFormed) (h : Reached a idx) (hle : u32 (idx + 1) ≤ a.capacity) :
    Reached a (u32 (idx + 1)) := by
  have hcapacity := ha.capacity_lt
  have hidx := h.le
  refine ⟨hle, fun hzero => ?_⟩
  rw [u32] at hzero
  omega

/-- In front of the first element is the last one that 32 bits can count. -/
theorem getval_zero : bitarrayGetval little a 0 = bitarrayGetval little a (2 ^ 32 - 1 + 1) := by
  have hidx : u32 (0 + 2 ^ 32 - 1) = u32 (2 ^ 32 - 1 + 1 + 2 ^ 32 - 1) := by decide
  rw [bitarrayGetval, bitarrayGetval, hidx]

/-- **Every reached index** is that of an element with bytes. -/
theorem Reached.getval (little : Bool) (ha : a.WellFormed)
    (hsize : a.capacity * a.elsize ≤ 2 ^ 32) (h : Reached a idx) :
    ∃ x, bitarrayGetval little a idx = some x := by
  have hle := h.le
  cases idx with
  | succ i => exact getval_isSome little ha hle
  | zero =>
      have hcapacity := h.pos rfl
      have hfits := ha.fits
      have hone : a.elsize = 1 := by
        have hpos := pos_of_mem ha.elsize_mem
        rw [hcapacity] at hsize
        omega
      rw [hone, hcapacity] at hfits
      have hbyte : (2 ^ 32 - 1) / perByte a.elsize < a.values.length := by
        rw [hone, show (2 ^ 32 - 1) / perByte 1 = 2 ^ 29 - 1 by decide]
        omega
      rw [getval_zero, getval_small ha.elsize_mem (by omega) (by decide),
        List.getElem?_eq_getElem hbyte]
      exact ⟨_, rfl⟩

/-- A call does not come to a fault. -/
def Sound {α : Type} (r : Except Stop α) : Prop := r ≠ .error .fault

theorem sound_ok {α : Type} (x : α) : Sound (.ok x) := by
  intro h
  cases h

theorem sound_error {α : Type} {e : Stop} (h : e ≠ .fault) : Sound (.error e : Except Stop α) :=
  fun hfault => h (Except.error.inj hfault)

theorem Sound.bind {α β : Type} {r : Except Stop α} {f : α → Except Stop β} (h : Sound r)
    (hf : ∀ x, r = .ok x → Sound (f x)) : Sound (r.bind f) := by
  cases r with
  | ok x => exact hf x rfl
  | error e => exact sound_error fun hfault => h (congrArg Except.error hfault)

theorem Sound.map {α β : Type} {r : Except Stop α} (h : Sound r) (f : α → β) : Sound (r.map f) := by
  cases r with
  | ok x => exact sound_ok _
  | error e => exact sound_error fun hfault => h (congrArg Except.error hfault)

/-- What is behind a reached index. -/
theorem Reached.next_or (ha : a.WellFormed) (h : Reached a idx) :
    Reached a (u32 (idx + 1)) ∨ a.capacity < u32 (idx + 1) := by
  rcases Nat.lt_or_ge a.capacity (u32 (idx + 1)) with hlt | hle
  · exact .inr hlt
  · exact .inl (h.next ha hle)

theorem reached_one (a : Array) : Reached a 1 ∨ a.capacity < 1 := by
  rcases Nat.lt_or_ge a.capacity 1 with hlt | hle
  · exact .inr hlt
  · exact .inl ⟨hle, fun h => absurd h Nat.one_ne_zero⟩

theorem unpackSeq_sound (ha : a.WellFormed) (hsize : a.capacity * a.elsize ≤ 2 ^ 32) (fuel : Nat)
    (h : Reached a idx ∨ a.capacity < idx) : Sound (unpackSeq little a fuel idx) := by
  induction fuel generalizing idx with
  | zero => exact sound_error (by decide)
  | succ fuel ih =>
      rw [unpackSeq]
      rcases h with hreached | hlt
      · obtain ⟨x, hx⟩ := Reached.getval little ha hsize hreached
        rw [if_pos hreached.le, hx]
        exact Sound.map (ih (hreached.next_or ha)) _
      · rw [if_neg (Nat.not_le.mpr hlt)]
        exact sound_ok _

theorem bitarrayPairs_sound (ha : a.WellFormed) (hsize : a.capacity * a.elsize ≤ 2 ^ 32)
    (fuel : Nat) {control : Nat}
    (h : Reached a (u32 (control + 1)) ∨ a.capacity < u32 (control + 1)) :
    Sound (bitarrayPairs little a fuel control) := by
  induction fuel generalizing control with
  | zero => exact sound_error (by decide)
  | succ fuel ih =>
      have hidx : unsigned 32 (control + 1) = u32 (control + 1) := by
        rw [unsigned, u32]
        omega
      rw [bitarrayPairs, bitarrayIter, hidx]
      rcases h with hreached | hlt
      · obtain ⟨x, hx⟩ := Reached.getval little ha hsize hreached
        rw [if_pos hreached.le, hx]
        exact Sound.map (ih (hreached.next_or ha)) _
      · rw [if_neg (Nat.not_le.mpr hlt)]
        exact sound_ok _

theorem unpackRaw_sound (h : roundSize (u32 (a.capacity * a.elsize)) ≤ a.values.length) :
    Sound (unpackRaw a) := by
  rw [unpackRaw, if_pos h]
  exact sound_ok _

theorem unpackMode_sound (ptextmode : Option (List UInt8)) : Sound (unpackMode ptextmode) := by
  unfold unpackMode
  split
  · exact sound_ok _
  · split
    · exact sound_ok _
    · split
      · exact sound_ok _
      · exact sound_error (by decide)

theorem bitarrayTotable_sound (fuel : Nat) (hseq : Sound (unpackSeq little a fuel 1))
    (hraw : Sound (unpackRaw a)) (ptextmode : Option (List UInt8)) :
    Sound (bitarrayTotable little fuel a ptextmode) := by
  refine (unpackMode_sound ptextmode).bind fun mode _ => ?_
  split
  · exact sound_error (by decide)
  · split
    · exact hseq
    · exact hraw.map _

theorem bitarrayTostring_sound (fuel : Nat) (hseq : Sound (unpackSeq little a fuel 1))
    (hraw : Sound (unpackRaw a)) (ptextmode : Option (List UInt8)) :
    Sound (bitarrayTostring little fuel a ptextmode) := by
  refine (unpackMode_sound ptextmode).bind fun mode _ => ?_
  split
  · exact sound_error (by decide)
  · split
    · exact hseq.map _
    · exact hraw

end Bitarray
