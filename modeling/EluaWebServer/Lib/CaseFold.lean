import Mathlib.Data.List.Basic

/-!
# Comparing strings ignoring case

`strcasecmp` and `strncasecmp` in the C locale, as tests for equality.  A
string is the list of its characters, without the terminator.
-/

namespace CaseFold

/-- `tolower`. -/
def lower (c : UInt8) : UInt8 := if 0x41 ≤ c ∧ c ≤ 0x5A then c + 0x20 else c

/-- `strcasecmp( s, t ) == 0`. -/
def strcasecmpEq (s t : List UInt8) : Bool := s.map lower = t.map lower

/-- `strncasecmp( s, t, n ) == 0`. -/
def strncasecmpEq (n : Nat) (s t : List UInt8) : Bool := strcasecmpEq (s.take n) (t.take n)

theorem strcasecmpEq_iff {s t : List UInt8} :
    strcasecmpEq s t = true ↔ s.map lower = t.map lower :=
  decide_eq_true_iff

theorem strcasecmpEq_symm {s t : List UInt8} (h : strcasecmpEq s t = true) :
    strcasecmpEq t s = true :=
  strcasecmpEq_iff.mpr (strcasecmpEq_iff.mp h).symm

theorem strcasecmpEq_trans {s t u : List UInt8} (hst : strcasecmpEq s t = true)
    (htu : strcasecmpEq t u = true) : strcasecmpEq s u = true :=
  strcasecmpEq_iff.mpr ((strcasecmpEq_iff.mp hst).trans (strcasecmpEq_iff.mp htu))

end CaseFold
