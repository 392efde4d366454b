import EluaWebServer.Sermux.Mux
import Mathlib.Tactic.IntervalCases

/-!
# Escaping

A data byte that could be taken for a control byte is sent as the escape
character and its exclusive or with a mask, which is no control byte; the
receiver undoes it.
-/

namespace Sermux

/-! ## Escaping -/

theorem mem_of_needsEscape {d : UInt8} (h : needsEscape d = true) :
    d ∈ ([0xC0, 0xFF, 0xD0, 0xD1, 0xD2, 0xD3, 0xD4, 0xD5, 0xD6, 0xD7] : List UInt8) := by
  simp only [needsEscape, Bool.or_eq_true, Bool.and_eq_true, decide_eq_true_eq] at h
  rcases h with (rfl | rfl) | ⟨hlo, hhi⟩
  · decide
  · decide
  · have h₁ : 208 ≤ d.toNat := hlo
    have h₂ : d.toNat ≤ 215 := hhi
    have hd : d = UInt8.ofNat d.toNat := UInt8.ofNat_toNat.symm
    rw [hd]
    interval_cases d.toNat <;> decide

/-- An escaped byte is no control byte. -/
theorem needsEscape_xor {d : UInt8} (h : needsEscape d = true) :
    needsEscape (d ^^^ SERMUX_ESCAPE_XOR_MASK) = false := by
  have hall : ([0xC0, 0xFF, 0xD0, 0xD1, 0xD2, 0xD3, 0xD4, 0xD5, 0xD6, 0xD7] : List UInt8).all
      (fun d => !needsEscape (d ^^^ SERMUX_ESCAPE_XOR_MASK)) = true := rfl
  have hd := List.all_eq_true.mp hall d (mem_of_needsEscape h)
  rwa [Bool.not_eq_true'] at hd

theorem xor_mask_xor_mask (d : UInt8) :
    d ^^^ SERMUX_ESCAPE_XOR_MASK ^^^ SERMUX_ESCAPE_XOR_MASK = d := by
  rw [UInt8.xor_assoc, UInt8.xor_self, UInt8.xor_zero]

/-- The data byte that a received character stands for. -/
def unescape (gotEsc : Bool) (c : UInt8) : UInt8 :=
  if gotEsc then c ^^^ SERMUX_ESCAPE_XOR_MASK else c

theorem unescape_sentAs (d : UInt8) : unescape (sentAs d).esc (sentAs d).char = d := by
  unfold sentAs
  by_cases h : needsEscape d = true
  · rw [if_pos h]
    exact xor_mask_xor_mask d
  · rw [if_neg h]
    rfl

/-- The character of a data byte on the line is no control byte. -/
theorem needsEscape_sentAs (d : UInt8) : needsEscape (sentAs d).char = false := by
  unfold sentAs
  by_cases h : needsEscape d = true
  · rw [if_pos h]
    exact needsEscape_xor h
  · rw [if_neg h]
    exact Bool.eq_false_iff.mpr h

/-- A byte is escaped only when it has to be. -/
theorem needsEscape_of_esc {d : UInt8} (h : (sentAs d).esc = true) : needsEscape d = true := by
  unfold sentAs at h
  by_cases hd : needsEscape d = true
  · exact hd
  · rw [if_neg hd] at h
    cases h

/-! What a character that is no control byte is not. -/

theorem ne_escape {c : UInt8} (h : needsEscape c = false) : c ≠ SERMUX_ESCAPE_CHAR := by
  rintro rfl
  exact absurd h (by decide)

theorem ne_force {c : UInt8} (h : needsEscape c = false) : c ≠ SERMUX_FORCE_SID_CHAR := by
  rintro rfl
  exact absurd h (by decide)

theorem not_serviceId {c : UInt8} (h : needsEscape c = false) :
    (SERMUX_SERVICE_ID_FIRST ≤ c && c ≤ SERMUX_SERVICE_ID_LAST) = false := by
  unfold needsEscape at h
  simp only [Bool.or_eq_false_iff] at h
  exact h.2

/-- With at most eight virtual UARTs their ids are service ids. -/
theorem serviceId_of_isVuart {numVuart : Nat} (hn : numVuart ≤ SERMUX_SERVICE_MAX) {c : UInt8}
    (h : isVuart numVuart c = true) :
    (SERMUX_SERVICE_ID_FIRST ≤ c && c ≤ SERMUX_SERVICE_ID_LAST) = true := by
  have hfirst : SERMUX_SERVICE_ID_FIRST.toNat = 208 := rfl
  have hmax : SERMUX_SERVICE_MAX = 8 := rfl
  simp only [isVuart, Bool.and_eq_true, decide_eq_true_eq] at h ⊢
  refine ⟨h.1, ?_⟩
  have hle : c.toNat ≤ 215 := by omega
  exact hle

theorem needsEscape_of_isVuart {numVuart : Nat} (hn : numVuart ≤ SERMUX_SERVICE_MAX) {c : UInt8}
    (h : isVuart numVuart c = true) : needsEscape c = true := by
  have hid := serviceId_of_isVuart hn h
  unfold needsEscape
  rw [hid, Bool.or_true]

theorem not_isVuart {numVuart : Nat} (hn : numVuart ≤ SERMUX_SERVICE_MAX) {c : UInt8}
    (h : needsEscape c = false) : isVuart numVuart c = false := by
  by_contra hv
  rw [Bool.not_eq_false] at hv
  rw [needsEscape_of_isVuart hn hv] at h
  cases h

theorem isVuart_ne_escape {numVuart : Nat} (hn : numVuart ≤ SERMUX_SERVICE_MAX) {c : UInt8}
    (h : isVuart numVuart c = true) : c ≠ SERMUX_ESCAPE_CHAR := by
  rintro rfl
  exact absurd (serviceId_of_isVuart hn h) (by decide)

theorem isVuart_ne_force {numVuart : Nat} (hn : numVuart ≤ SERMUX_SERVICE_MAX) {c : UInt8}
    (h : isVuart numVuart c = true) : c ≠ SERMUX_FORCE_SID_CHAR := by
  rintro rfl
  exact absurd (serviceId_of_isVuart hn h) (by decide)

end Sermux
