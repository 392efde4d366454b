import EluaWebServer.Lib.Decimal

/-!
# Reading integers

`strtol` and the conversion `%d` of `scanf`, in base 10 and with 32 bits.  An integer that is read
has spaces in front of it and a sign; it is limited to the range of its type.
-/

namespace Numeral

open Json Decimal

def isspace (b : UInt8) : Bool := b = 0x20 || (0x09 ≤ b && b ≤ 0x0D)

/-- The value of some digits. -/
def value (ds : List UInt8) : Nat := ds.foldl (fun n d => 10 * n + (d.toNat - 48)) 0

/-- A sign and a magnitude. -/
def signed (neg : Bool) (n : Nat) : Int := if neg then -n else n

/-- An optional sign. -/
def sign : List UInt8 → Bool × List UInt8
  | [] => (false, [])
  | b :: s => if b = minus then (true, s) else if b = plus then (false, s) else (false, b :: s)

/-- The integer that a text begins with, and what follows it. -/
def scan (s : List UInt8) : Option (Int × List UInt8) :=
  let u := sign (s.dropWhile isspace)
  if u.2.takeWhile isDigit = [] then none
  else some (signed u.1 (value (u.2.takeWhile isDigit)), u.2.dropWhile isDigit)

/-- The range of a `long`. -/
def clamp (n : Int) : Int := max (-2 ^ 31) (min n (2 ^ 31 - 1))

/-- `strtol`, with what `endptr` points to: nothing is read when there are no digits. -/
def strtol (s : List UInt8) : Int × List UInt8 :=
  match scan s with
  | none => (0, s)
  | some (n, rest) => (clamp n, rest)

/-- The conversion `%d` of `sscanf`. -/
def scanD (s : List UInt8) : Option (Int × List UInt8) :=
  (scan s).map fun r => (clamp r.1, r.2)

/-- Spaces, an optional sign and digits denote an integer. -/
def Denotes (s : List UInt8) (n : Int) : Prop :=
  ∃ spaces neg ds sgn, s = spaces ++ (sgn ++ ds) ∧ (∀ b ∈ spaces, isspace b = true) ∧
    (sgn = [] ∧ neg = false ∨ sgn = [plus] ∧ neg = false ∨ sgn = [minus] ∧ neg = true) ∧
    Digits ds ∧ n = signed neg (value ds)

/-! ## What is read -/

variable {s rest ds : List UInt8} {n : Int}

theorem sign_eq (s : List UInt8) :
    ∃ sgn, s = sgn ++ (sign s).2 ∧
      (sgn = [] ∧ (sign s).1 = false ∨ sgn = [plus] ∧ (sign s).1 = false ∨
        sgn = [minus] ∧ (sign s).1 = true) := by
  cases s with
  | nil => exact ⟨[], rfl, .inl ⟨rfl, rfl⟩⟩
  | cons b s =>
    by_cases hminus : b = minus
    · refine ⟨[minus], ?_, ?_⟩
      · simp [sign, hminus]
      · simp [sign, hminus]
    · by_cases hplus : b = plus
      · have hne : plus ≠ minus := by decide
        refine ⟨[plus], ?_, ?_⟩
        · simp [sign, hplus, hne]
        · simp [sign, hplus, hne]
      · refine ⟨[], ?_, ?_⟩
        · simp [sign, hminus, hplus]
        · simp [sign, hminus, hplus]

/-- **What is read** denotes the integer. -/
theorem scan_denotes (h : scan s = some (n, rest)) : ∃ t, s = t ++ rest ∧ Denotes t n := by
  obtain ⟨sgn, hsplit, hsign⟩ := sign_eq (s.dropWhile isspace)
  obtain ⟨u, hu⟩ : ∃ u, u = sign (s.dropWhile isspace) := ⟨_, rfl⟩
  rw [← hu] at hsplit hsign
  unfold scan at h
  rw [← hu] at h
  by_cases hdigits : u.2.takeWhile isDigit = []
  · simp [hdigits] at h
  · obtain ⟨hn, hrest⟩ : signed u.1 (value (u.2.takeWhile isDigit)) = n ∧
        u.2.dropWhile isDigit = rest := by
      simpa [hdigits] using h
    have htext : s = (s.takeWhile isspace ++ (sgn ++ u.2.takeWhile isDigit)) ++ rest := by
      calc s = s.takeWhile isspace ++ s.dropWhile isspace := List.takeWhile_append_dropWhile.symm
        _ = s.takeWhile isspace ++ (sgn ++ (u.2.takeWhile isDigit ++ rest)) := by
            rw [hsplit, ← hrest, List.takeWhile_append_dropWhile]
        _ = (s.takeWhile isspace ++ (sgn ++ u.2.takeWhile isDigit)) ++ rest := by simp
    refine ⟨_, htext, s.takeWhile isspace, u.1, u.2.takeWhile isDigit, sgn, rfl, ?_, hsign, ?_, ?_⟩
    · intro b hb
      exact List.mem_takeWhile_imp hb
    · exact ⟨hdigits, fun b hb => List.mem_takeWhile_imp hb⟩
    · exact hn.symm

theorem isDigit_not_space {b : UInt8} (h : isDigit b = true) :
    isspace b = false ∧ b ≠ minus ∧ b ≠ plus := by
  unfold isDigit at h
  unfold isspace minus plus
  grind

/-- Digits are read up to what is no digit. -/
theorem scan_digits (hds : Digits ds) (hrest : ∀ b ∈ rest.head?, isDigit b = false) :
    scan (ds ++ rest) = some ((value ds : Int), rest) := by
  obtain ⟨hne, hall⟩ := hds
  have hstop : rest.takeWhile isDigit = [] ∧ rest.dropWhile isDigit = rest := by
    cases rest with
    | nil => exact ⟨rfl, rfl⟩
    | cons b rest =>
      have hb := hrest b rfl
      simp [hb]
  have htake : (ds ++ rest).takeWhile isDigit = ds := by
    rw [List.takeWhile_append_of_pos hall, hstop.1, List.append_nil]
  have hdrop : (ds ++ rest).dropWhile isDigit = rest := by
    rw [List.dropWhile_append_of_pos hall, hstop.2]
  have hfirst : sign ((ds ++ rest).dropWhile isspace) = (false, ds ++ rest) := by
    cases ds with
    | nil => exact absurd rfl hne
    | cons d ds =>
      obtain ⟨hspace, hminus, hplus⟩ := isDigit_not_space (hall d List.mem_cons_self)
      simp [sign, hspace, hminus, hplus]
  simp [scan, hfirst, htake, hdrop, hne, signed]

/-! ## What is printed -/

theorem value_concat (ds : List UInt8) (d : UInt8) :
    value (ds ++ [d]) = 10 * value ds + (d.toNat - 48) := by
  simp [value, List.foldl_append]

theorem toNat_digit {d : Nat} (h : d < 10) : (digit d).toNat - 48 = d := by
  have hall : ∀ d < 10, (digit d).toNat - 48 = d := by decide
  exact hall d h

theorem value_digits {ds : List Nat} (h : ∀ d ∈ ds, d < 10) :
    value (ds.reverse.map digit) = Nat.ofDigits 10 ds := by
  induction ds with
  | nil => rfl
  | cons d ds ih =>
    have hd : d < 10 := h d List.mem_cons_self
    have hrest := ih fun e he => h e (List.mem_cons_of_mem d he)
    rw [List.reverse_cons, List.map_append, List.map_singleton, value_concat, hrest, toNat_digit hd,
      Nat.ofDigits_cons, Nat.add_comm]

/-- **What is printed** is read again. -/
theorem value_natText (n : Nat) : value (natText n) = n := by
  unfold natText
  by_cases hzero : n = 0
  · subst hzero
    rfl
  · rw [if_neg hzero, value_digits fun d hd => Nat.digits_lt_base (by decide) hd,
      Nat.ofDigits_digits]

theorem clamp_eq (hle : -2 ^ 31 ≤ n) (hlt : n < 2 ^ 31) : clamp n = n := by
  unfold clamp
  omega

theorem scanD_natText {k : Nat} (hk : k < 2 ^ 31) (hrest : ∀ b ∈ rest.head?, isDigit b = false) :
    scanD (natText k ++ rest) = some ((k : Int), rest) := by
  rw [scanD, scan_digits (natText_digits k) hrest, value_natText, Option.map_some,
    clamp_eq (by omega) (by omega)]

theorem strtol_natText {k : Nat} (hk : k < 2 ^ 31) : strtol (natText k) = ((k : Int), []) := by
  have hscan := @scan_digits [] (natText k) (natText_digits k) (by simp)
  rw [List.append_nil] at hscan
  rw [strtol, hscan]
  simp only [value_natText, clamp_eq (by omega : -2 ^ 31 ≤ (k : Int)) (by omega)]

/-- A number that is read as a whole. -/
theorem strtol_denotes (hne : s ≠ []) (h : (strtol s).2 = []) :
    ∃ n, Denotes s n ∧ (strtol s).1 = clamp n := by
  unfold strtol at h ⊢
  cases hscan : scan s with
  | none =>
    rw [hscan] at h
    exact absurd h hne
  | some r =>
    obtain ⟨n, rest⟩ := r
    have hrest : rest = [] := by simpa [hscan] using h
    obtain ⟨t, ht, hdenotes⟩ := scan_denotes hscan
    refine ⟨n, ?_, rfl⟩
    rw [ht, hrest, List.append_nil]
    exact hdenotes

theorem scanD_denotes {m : Int} (h : scanD s = some (m, rest)) :
    ∃ t n, s = t ++ rest ∧ Denotes t n ∧ m = clamp n := by
  obtain ⟨⟨n, rest'⟩, hscan, hpair⟩ := Option.map_eq_some_iff.mp h
  obtain ⟨hm, hrest⟩ := Prod.mk.inj hpair
  obtain ⟨t, ht, hdenotes⟩ := scan_denotes hscan
  exact ⟨t, n, by rw [ht, ← hrest], hdenotes, hm.symm⟩

/-- A small number has not been limited. -/
theorem eq_of_clamp (hlow : -2 ^ 31 < clamp n) (hhigh : clamp n < 2 ^ 31 - 1) : clamp n = n := by
  unfold clamp at hlow hhigh ⊢
  omega

end Numeral
