import EluaWebServer.Lib.Json
import Mathlib.Data.Int.Log
import Mathlib.Data.NNRat.Floor
import Mathlib.Data.List.DropRight
import Mathlib.Data.Nat.Digits.Lemmas

/-!
# Numbers in decimal

`printf` with the conversion `%.<p>g`.  A number is a sign and an exact
magnitude, an infinity or not a number; the doubles are among these.
-/

namespace Decimal

open Json

inductive Number where
  | nan (neg : Bool)
  | inf (neg : Bool)
  | finite (neg : Bool) (mag : ℚ≥0)
  deriving DecidableEq

def Number.isFinite : Number → Bool
  | .finite _ _ => true
  | _ => false

/-- The nearest integer, ties to even. -/
def roundHalfEven (q : ℚ≥0) : ℕ :=
  let n := ⌊q⌋₊
  if 2 * q < 2 * n + 1 then n
  else if 2 * q = 2 * n + 1 then n + n % 2
  else n + 1

def digit (d : ℕ) : UInt8 := 0x30 + UInt8.ofNat d

def natText (n : ℕ) : List UInt8 :=
  if n = 0 then [zero] else (Nat.digits 10 n).reverse.map digit

/-- The last digits of an integer, with the zeros in front of them. -/
def padded : ℕ → ℕ → List UInt8
  | 0, _ => []
  | w + 1, n => digit (n / 10 ^ w % 10) :: padded w n

def signText (neg : Bool) : List UInt8 := if neg then [minus] else []

/-- The digits after the decimal point, without trailing zeros. -/
def fracText (ds : List UInt8) : List UInt8 :=
  if ds.rdropWhile (· = zero) = [] then [] else decimalPoint :: ds.rdropWhile (· = zero)

/-- The exponent, with two digits at least. -/
def expText (x : ℤ) : List UInt8 :=
  0x65 :: (if x < 0 then minus else plus) ::
    ((if x.natAbs < 10 then [zero] else []) ++ natText x.natAbs)

/-- The digits of a magnitude as an integer of `p` digits, and the exponent. -/
def significant (p : ℕ) (mag : ℚ≥0) : ℕ × ℤ :=
  let x := Int.log 10 mag
  let d := roundHalfEven (mag * 10 ^ (p - 1 - x))
  if d = 10 ^ p then (10 ^ (p - 1), x + 1) else (d, x)

/-- `"inf"` and `"nan"`. -/
def infText : List UInt8 := [0x69, 0x6E, 0x66]
def nanText : List UInt8 := [0x6E, 0x61, 0x6E]

/-- What `%.<p>g` prints of a magnitude. -/
def magText (p : ℕ) (mag : ℚ≥0) : List UInt8 :=
  if mag = 0 then [zero]
  else
    let d := (significant p mag).1
    let x := (significant p mag).2
    if x < -4 ∨ p ≤ x then
      natText (d / 10 ^ (p - 1)) ++ (fracText (padded (p - 1) d) ++ expText x)
    else
      let w := (p - 1 - x).toNat
      natText (d / 10 ^ w) ++ fracText (padded w d)

/-- `sprintf` with `"%.<p>g"`. -/
def formatG (p : ℕ) : Number → List UInt8
  | .nan neg => signText neg ++ nanText
  | .inf neg => signText neg ++ infText
  | .finite neg mag => signText neg ++ magText p mag

/-! ## Numbers are printed as numerals -/

theorem isDigit_digit {d : ℕ} (h : d < 10) : isDigit (digit d) = true := by
  have hall : ∀ d < 10, isDigit (digit d) = true := by decide
  exact hall d h

theorem digit_ne_zero {d : ℕ} (h : d < 10) (hd : d ≠ 0) : digit d ≠ zero := by
  have hall : ∀ d < 10, d ≠ 0 → digit d ≠ zero := by decide
  exact hall d h hd

theorem natText_intText (n : ℕ) : IntText (natText n) := by
  unfold natText
  split
  · exact .inl rfl
  · rename_i hn
    have hdigits : Nat.digits 10 n ≠ [] := Nat.digits_ne_nil_iff_ne_zero.mpr hn
    refine .inr ⟨⟨?_, ?_⟩, ?_⟩
    · rw [Ne, List.map_eq_nil_iff, List.reverse_eq_nil_iff]
      exact hdigits
    · intro b hb
      obtain ⟨d, hd, rfl⟩ := List.mem_map.mp hb
      exact isDigit_digit (Nat.digits_lt_base (by decide) (List.mem_reverse.mp hd))
    · rw [List.head?_map, List.head?_reverse, List.getLast?_eq_some_getLast hdigits,
        Option.map_some]
      have hlast : (Nat.digits 10 n).getLast hdigits < 10 :=
        Nat.digits_lt_base (by decide) (List.getLast_mem hdigits)
      exact fun h => digit_ne_zero hlast (Nat.getLast_digit_ne_zero 10 hn) (Option.some.inj h)

theorem natText_digits (n : ℕ) : Digits (natText n) := by
  rcases natText_intText n with h | h
  · rw [h]
    exact ⟨by decide, List.forall_mem_singleton.mpr rfl⟩
  · exact h.1

theorem padded_digits : ∀ w n, ∀ b ∈ padded w n, isDigit b = true
  | 0, _, _, hb => absurd hb List.not_mem_nil
  | w + 1, n, b, hb => by
      rcases List.mem_cons.mp hb with rfl | hb
      · exact isDigit_digit (Nat.mod_lt _ (by decide))
      · exact padded_digits w n b hb

theorem fracText_fracText {ds : List UInt8} (h : ∀ b ∈ ds, isDigit b = true) :
    FracText (fracText ds) := by
  unfold fracText
  split
  · exact .inl rfl
  · rename_i hne
    exact .inr ⟨_, ⟨hne, fun b hb => h b ((List.rdropWhile_prefix _ _).subset hb)⟩, rfl⟩

theorem expText_expText (x : ℤ) : ExpText (expText x) := by
  refine .inr ⟨_, _, ?_, ⟨?_, ?_⟩, rfl⟩
  · split
    · exact .inl rfl
    · exact .inr rfl
  · rw [Ne, List.append_eq_nil_iff]
    exact fun h => (natText_digits _).1 h.2
  · intro b hb
    rcases List.mem_append.mp hb with hb | hb
    · split at hb
      · rw [List.mem_singleton.mp hb]
        decide
      · exact absurd hb List.not_mem_nil
    · exact (natText_digits _).2 b hb

theorem signText_cases (neg : Bool) : signText neg = [] ∨ signText neg = [minus] := by
  cases neg with
  | false => exact .inl rfl
  | true => exact .inr rfl

/-- **Finite numbers are printed as numerals.** -/
theorem formatG_numeral (p : ℕ) (neg : Bool) (mag : ℚ≥0) :
    Numeral (formatG p (.finite neg mag)) := by
  change Numeral (signText neg ++ magText p mag)
  unfold magText
  split
  · exact ⟨signText neg, [zero], [], [], rfl, signText_cases neg, .inl rfl, .inl rfl, .inl rfl⟩
  · dsimp only
    split
    · exact ⟨_, _, _, _, rfl, signText_cases neg, natText_intText _,
        fracText_fracText (padded_digits _ _), expText_expText _⟩
    · exact ⟨_, _, _, [], by rw [List.append_nil], signText_cases neg, natText_intText _,
        fracText_fracText (padded_digits _ _), .inl rfl⟩

/-! ## Reading what is printed -/

/-- What a reader of JSON gets from a number. -/
def jsonNumber (p : ℕ) (x : Number) : Option Json.Value :=
  if x.isFinite then some (.number (formatG p x)) else none

/-- **Only finite numbers are printed as JSON.** -/
theorem reads_formatG (p : ℕ) (x : Number) : Reads (formatG p x) (jsonNumber p x) := by
  cases x with
  | finite neg mag => exact reads_numeral (formatG_numeral p neg mag)
  | nan neg =>
      cases neg <;> exact reads_of_start rfl (by decide) (by decide) fun _ _ => rfl
  | inf neg =>
      cases neg <;> exact reads_of_start rfl (by decide) (by decide) fun _ _ => rfl

theorem formatG_ascii (p : ℕ) (x : Number) : ∀ b ∈ formatG p x, b < 0x80 := by
  cases x with
  | finite neg mag => exact numeral_ascii (formatG_numeral p neg mag)
  | nan neg =>
      change ∀ b ∈ signText neg ++ nanText, b < 0x80
      cases neg with
      | false => exact forall_of_all (by decide)
      | true => exact forall_of_all (by decide)
  | inf neg =>
      change ∀ b ∈ signText neg ++ infText, b < 0x80
      cases neg with
      | false => exact forall_of_all (by decide)
      | true => exact forall_of_all (by decide)

theorem readsName_formatG (p : ℕ) (x : Number) : ReadsName (formatG p x) none := by
  cases x with
  | finite neg mag => exact readsName_numeral (formatG_numeral p neg mag)
  | nan neg => cases neg <;> exact ⟨⟨_, _, rfl, by decide, by decide⟩, fun _ => rfl⟩
  | inf neg => cases neg <;> exact ⟨⟨_, _, rfl, by decide, by decide⟩, fun _ => rfl⟩

end Decimal
