import Mathlib.Algebra.Ring.Int.Defs
import EluaWebServer.Lib.CString

/-!
# The formats of `uart.read`

One loop reads lines, words, numbers and a number of characters.  The test of the number comes after
a character has been stored.
-/

namespace Uart

/-- The modes for the UART read function, with `maxsize`. -/
inductive Mode where
  | line
  | number
  | space
  | maxsize (n : Nat)
  deriving DecidableEq

/-- The second argument: a number (`lua_isnumber` also takes numerals), a string that is none, or
something else. -/
inductive Arg where
  | number (n : Int32)
  | string (fmt : List UInt8)
  | other (typename : String)

/-- Check format. -/
def checkFormat : Arg → Except String Mode
  | .number maxsize =>
      if maxsize < 0 then .error "invalid max size" else .ok (.maxsize maxsize.toNatClampNeg)
  | .string fmt =>
      if CString.text fmt = [0x2A, 0x6C] then .ok .line -- "*l"
      else if CString.text fmt = [0x2A, 0x6E] then .ok .number -- "*n"
      else if CString.text fmt = [0x2A, 0x73] then .ok .space -- "*s"
      else .error "invalid format"
  | .other typename => .error ("string expected, got " ++ typename)

/-- `( char )res`, where `char` may be signed. -/
def toChar (signed : Bool) (res : UInt8) : Int :=
  if signed ∧ 128 ≤ res then (res.toNat : Int) - 256 else res.toNat

def isdigit (c : Int) : Bool := 48 ≤ c ∧ c ≤ 57

def isspace (c : Int) : Bool := c = 32 ∨ 9 ≤ c ∧ c ≤ 13

/-- `'-'` and `'+'`. -/
def minus : UInt8 := 0x2D

def plus : UInt8 := 0x2B

/-- The character ends the data, and is not stored. -/
def delimits (signed : Bool) (mode : Mode) (count : Nat) (res : UInt8) : Bool :=
  let cres := toChar signed res
  let issign := count = 1 ∧ (res = minus ∨ res = plus)
  (cres = 10 ∧ mode = .line) ∨ (¬ isdigit cres ∧ ¬ issign ∧ mode = .number) ∨
    (isspace cres ∧ mode = .space)

/-- The loop, on what `platform_uart_recv` returns one call after the other (`none` is -1).  It
returns the buffer and how many characters were received; while it waits for the next one there is
no result.  The count is exact: what is counted is in the buffer. -/
def readLoop (signed : Bool) (mode : Mode) :
    List UInt8 → Nat → List (Option UInt8) → Option (List UInt8 × Nat)
  | _, _, [] => none
  | b, count, none :: _ => some (b, count)
  | b, count, some res :: results =>
      let count := count + 1
      if delimits signed mode count res then some (b, count)
      else
        let b := b ++ [res]
        if mode = .maxsize count then some (b, count) else readLoop signed mode b count results

/-- What a sign and digits denote. -/
def digitsValue (ds : List UInt8) : Nat := ds.foldl (fun n d => 10 * n + (d.toNat - 48)) 0

def denoted : List UInt8 → Int
  | [] => 0
  | b :: ds =>
      if b = minus then -digitsValue ds
      else if b = plus then digitsValue ds
      else digitsValue (b :: ds)

/-- How an integer that is read as a Lua number is converted to an `int`: as it is, when it is
one. -/
structure Conversion where
  convert : Int → Int32
  exact : ∀ n, -2 ^ 31 ≤ n → n < 2 ^ 31 → (convert n).toInt = n

/-- `lua_tointeger` of a sign and digits; without digits it is not a number. -/
def luaTointeger (c : Conversion) (s : List UInt8) : Int32 :=
  if s.any fun b => isdigit (toChar false b) then c.convert (denoted s) else 0

inductive Value where
  | string (s : List UInt8)
  | integer (n : Int)
  deriving DecidableEq

/-- `uart_read`: what it returns, and how many characters it has received. -/
def uartRead (c : Conversion) (signed : Bool) (arg : Arg) (results : List (Option UInt8)) :
    Except String (Option (Value × Nat)) :=
  (checkFormat arg).map fun mode =>
    (readLoop signed mode [] 0 results).map fun r =>
      (if mode = .number then .integer (luaTointeger c r.1).toInt else .string r.1, r.2)

/-! ## What the formats mean -/

/-- The bytes up to the timeout. -/
def delivered : List (Option UInt8) → List UInt8
  | [] | none :: _ => []
  | some b :: results => b :: delivered results

def digitByte (b : UInt8) : Bool := 48 ≤ b ∧ b ≤ 57

def spaceByte (b : UInt8) : Bool := b = 32 ∨ 9 ≤ b ∧ b ≤ 13

/-- An optional sign, and the longest run of digits. -/
def numberPrefix : List UInt8 → List UInt8
  | [] => []
  | b :: bs =>
      if b = minus ∨ b = plus then b :: bs.takeWhile digitByte else (b :: bs).takeWhile digitByte

/-- The bytes that a read is for. -/
def wanted : Mode → List UInt8 → List UInt8
  | .line, bytes => bytes.takeWhile (· ≠ 10)
  | .number, bytes => numberPrefix bytes
  | .space, bytes => bytes.takeWhile fun b => !spaceByte b
  | .maxsize n, bytes => bytes.take n

/-- The data, and how many characters are received for it: all that are wanted, when there are
enough; the data and the delimiter, when there is one; else what comes before the timeout. -/
def expected (mode : Mode) (results : List (Option UInt8)) : Option (List UInt8 × Nat) :=
  let bytes := delivered results
  let data := wanted mode bytes
  match mode with
  | .maxsize n =>
      if n ≤ bytes.length ∨ none ∈ results then some (data, data.length) else none
  | _ =>
      if data.length < bytes.length then some (data, data.length + 1)
      else if none ∈ results then some (data, data.length)
      else none

/-- The call returns what the format asks for, and has received no more. -/
def ReadsRight (c : Conversion) (signed : Bool) (arg : Arg) (mode : Mode)
    (results : List (Option UInt8)) : Prop :=
  uartRead c signed arg results = .ok ((expected mode results).map fun r =>
    (if mode = .number then .integer (denoted r.1) else .string r.1, r.2))

/-! ## Characters -/

variable {c : Conversion} {signed : Bool} {mode : Mode} {b : List UInt8} {count : Nat}
  {results : List (Option UInt8)}

/-- Whether `char` is signed does not matter to the tests. -/
theorem toChar_between {m n : Int} (hm : 0 ≤ m) (hn : n < 128) (signed : Bool) (res : UInt8) :
    (m ≤ toChar signed res ∧ toChar signed res ≤ n) ↔ (m ≤ res.toNat ∧ (res.toNat : Int) ≤ n) := by
  have hlt := res.toNat_lt
  unfold toChar
  split
  · rename_i hlarge
    have hle := UInt8.le_iff_toNat_le.mp hlarge.2
    have h128 : (128 : UInt8).toNat = 128 := rfl
    omega
  · exact Iff.rfl

theorem byte_between {m n : UInt8} (res : UInt8) :
    ((m.toNat : Int) ≤ res.toNat ∧ (res.toNat : Int) ≤ n.toNat) ↔ (m ≤ res ∧ res ≤ n) := by
  rw [UInt8.le_iff_toNat_le, UInt8.le_iff_toNat_le]
  omega

@[simp] theorem isdigit_toChar (signed : Bool) (res : UInt8) :
    isdigit (toChar signed res) = digitByte res :=
  decide_eq_decide.mpr ((toChar_between (by decide) (by decide) signed res).trans
    (@byte_between 48 57 res))

@[simp] theorem toChar_eq (signed : Bool) {m : UInt8} (hm : m.toNat < 128) (res : UInt8) :
    toChar signed res = m.toNat ↔ res = m := by
  have hbetween := (toChar_between (Int.natCast_nonneg m.toNat) (Int.ofNat_lt.mpr hm) signed
    res).trans (@byte_between m m res)
  rw [Int.le_antisymm_iff, and_comm, hbetween, and_comm]
  exact UInt8.le_antisymm_iff.symm

@[simp] theorem isspace_toChar (signed : Bool) (res : UInt8) :
    isspace (toChar signed res) = spaceByte res :=
  decide_eq_decide.mpr (or_congr (@toChar_eq signed 32 (by decide) res)
    ((toChar_between (by decide) (by decide) signed res).trans (@byte_between 9 13 res)))

/-! ## The loop -/

/-- The characters up to the one that ends the data, from a count on. -/
def kept (signed : Bool) (mode : Mode) : Nat → List UInt8 → List UInt8
  | _, [] => []
  | count, res :: bs =>
      if delimits signed mode (count + 1) res then []
      else res :: kept signed mode (count + 1) bs

/-- **The loop of a format with a delimiter.** -/
theorem readLoop_delimited (hmode : ∀ n, mode ≠ .maxsize n) :
    readLoop signed mode b count results =
      let data := kept signed mode count (delivered results)
      if data.length < (delivered results).length then some (b ++ data, count + data.length + 1)
      else if none ∈ results then some (b ++ data, count + data.length)
      else none := by
  induction results generalizing b count with
  | nil => simp [readLoop, delivered]
  | cons result results ih =>
    cases result with
    | none => simp [readLoop, delivered, kept]
    | some res =>
      by_cases hdelimits : delimits signed mode (count + 1) res = true
      · simp [readLoop, delivered, kept, hdelimits]
      · have hdelimits' : delimits signed mode (count + 1) res = false := by simpa using hdelimits
        have hcount : count + 1 + (kept signed mode (count + 1) (delivered results)).length =
            count + ((kept signed mode (count + 1) (delivered results)).length + 1) := by omega
        simp [readLoop, delivered, kept, hdelimits', hmode, ih, hcount]

@[simp] theorem delimits_maxsize (n : Nat) (res : UInt8) :
    delimits signed (.maxsize n) count res = false := by
  simp [delimits]

/-- **The loop of a number of characters** that is not reached yet. -/
theorem readLoop_maxsize {n : Nat} (hcount : count < n) :
    readLoop signed (.maxsize n) b count results =
      let bytes := delivered results
      if n - count ≤ bytes.length ∨ none ∈ results then
        some (b ++ bytes.take (n - count), count + (bytes.take (n - count)).length)
      else none := by
  induction results generalizing b count with
  | nil =>
    have hnot : ¬ n - count ≤ 0 := by omega
    simp [readLoop, delivered, hnot]
  | cons result results ih =>
    cases result with
    | none => simp [readLoop, delivered]
    | some res =>
      by_cases hlast : n = count + 1
      · subst hlast
        have hone : count + 1 - count = 1 := by omega
        simp [readLoop, delivered, hone]
      · have hnext : count + 1 < n := by omega
        obtain ⟨k, hk⟩ : ∃ k, n - count = k + 1 := ⟨n - count - 1, by omega⟩
        have hk' : n - (count + 1) = k := by omega
        have hcount' : ∀ m, count + 1 + m = count + (m + 1) := by omega
        simp [readLoop, delivered, hlast, ih hnext, hk, hk', hcount']

/-- A number of characters that has been passed is never reached. -/
theorem readLoop_passed {n : Nat} (hcount : n ≤ count) :
    readLoop signed (.maxsize n) b count results =
      if none ∈ results then
        some (b ++ delivered results, count + (delivered results).length)
      else none := by
  induction results generalizing b count with
  | nil => simp [readLoop]
  | cons result results ih =>
    cases result with
    | none => simp [readLoop, delivered]
    | some res =>
      have hpassed : n ≠ count + 1 := by omega
      have hcount' : ∀ m, count + 1 + m = count + (m + 1) := by omega
      simp [readLoop, delivered, hpassed, ih (Nat.le_succ_of_le hcount), hcount']

/-! ## The data of a format -/

@[simp] theorem delimits_line (res : UInt8) :
    delimits signed .line count res = decide (res = 10) := by
  have hchar := @toChar_eq signed 10 (by decide) res
  have hten : ((10 : UInt8).toNat : Int) = 10 := rfl
  rw [hten] at hchar
  simp [delimits, hchar]

@[simp] theorem delimits_space (res : UInt8) :
    delimits signed .space count res = spaceByte res := by
  simp [delimits]

/-- Only the first character may be a sign. -/
@[simp] theorem delimits_number (res : UInt8) :
    delimits signed .number count res =
      (!digitByte res && !decide (count = 1 ∧ (res = minus ∨ res = plus))) := by
  simp [delimits]

/-- Up to the first character that is not of a kind, if this is what ends the data from now on. -/
theorem kept_eq_takeWhile {p : UInt8 → Bool} (bs : List UInt8)
    (hp : ∀ k res, count < k → delimits signed mode k res = !p res) :
    kept signed mode count bs = bs.takeWhile p := by
  induction bs generalizing count with
  | nil => rfl
  | cons res bs ih =>
    have hrest := ih fun k res hk => hp k res (Nat.lt_of_succ_lt hk)
    have hfirst := hp (count + 1) res (Nat.lt_succ_self count)
    by_cases hres : p res = true
    · simp [kept, hfirst, hres, hrest]
    · simp [kept, hfirst, hres]

theorem kept_line (bs : List UInt8) : kept signed .line count bs = bs.takeWhile (· ≠ 10) := by
  apply kept_eq_takeWhile
  intro k res _
  simp

theorem kept_space (bs : List UInt8) :
    kept signed .space count bs = bs.takeWhile fun b => !spaceByte b := by
  apply kept_eq_takeWhile
  intro k res _
  simp

/-- After the first character there are only digits. -/
theorem kept_digits (hcount : 0 < count) (bs : List UInt8) :
    kept signed .number count bs = bs.takeWhile digitByte := by
  apply kept_eq_takeWhile
  intro k res hk
  have hlater : k ≠ 1 := by omega
  simp [hlater]

theorem kept_number (bs : List UInt8) : kept signed .number 0 bs = numberPrefix bs := by
  cases bs with
  | nil => rfl
  | cons res bs =>
    have hrest := @kept_digits signed 1 Nat.one_pos bs
    by_cases hsign : res = minus ∨ res = plus
    · simp [kept, numberPrefix, hsign, hrest]
    · by_cases hres : digitByte res = true
      · simp [kept, numberPrefix, hsign, hres, hrest]
      · simp [kept, numberPrefix, hsign, hres]

/-- **The loop** receives and keeps what the format asks for, but for a maximum size of 0. -/
theorem readLoop_eq_expected (hmode : mode ≠ .maxsize 0) :
    readLoop signed mode [] 0 results = expected mode results := by
  cases mode with
  | line =>
    rw [readLoop_delimited (by simp), kept_line]
    simp only [List.nil_append, Nat.zero_add]
    rfl
  | number =>
    rw [readLoop_delimited (by simp), kept_number]
    simp only [List.nil_append, Nat.zero_add]
    rfl
  | space =>
    rw [readLoop_delimited (by simp), kept_space]
    simp only [List.nil_append, Nat.zero_add]
    rfl
  | maxsize n =>
    have hpos : 0 < n := by
      by_contra hzero
      exact hmode (by rw [Nat.eq_zero_of_not_pos hzero])
    rw [readLoop_maxsize hpos]
    simp [expected, wanted]

/-- With a maximum size of 0 everything is received up to the timeout. -/
theorem readLoop_zero :
    readLoop signed (.maxsize 0) [] 0 results =
      if none ∈ results then some (delivered results, (delivered results).length) else none := by
  rw [readLoop_passed (Nat.le_refl 0)]
  simp

/-! ## Numbers -/

/-- The number ends. -/
def NumberEnds (results : List (Option UInt8)) : Prop :=
  (numberPrefix (delivered results)).length < (delivered results).length ∨ none ∈ results

/-- The number that was read, as long as it is an `int`. -/
theorem luaTointeger_eq_iff (s : List UInt8) (hs : s.any digitByte = false → denoted s = 0) :
    (luaTointeger c s).toInt = denoted s ↔ -2 ^ 31 ≤ denoted s ∧ denoted s < 2 ^ 31 := by
  constructor
  · intro h
    rw [← h]
    exact ⟨Int32.le_toInt _, Int32.toInt_lt _⟩
  · intro h
    unfold luaTointeger
    simp only [isdigit_toChar]
    by_cases hdigits : s.any digitByte = true
    · rw [if_pos hdigits]
      exact c.exact _ h.1 h.2
    · rw [if_neg hdigits, hs (by simpa using hdigits)]
      rfl

/-- Without digits there is a sign at most. -/
theorem denoted_numberPrefix (bs : List UInt8)
    (hdigits : (numberPrefix bs).any digitByte = false) : denoted (numberPrefix bs) = 0 := by
  have hnone : ∀ rest : List UInt8, (rest.takeWhile digitByte).any digitByte = false →
      rest.takeWhile digitByte = [] := by
    intro rest hrest
    cases rest with
    | nil => rfl
    | cons d rest =>
      by_cases hd : digitByte d = true
      · simp [hd] at hrest
      · simp [hd]
  cases bs with
  | nil => rfl
  | cons b bs =>
    by_cases hsign : b = minus ∨ b = plus
    · have hdrop : digitByte b = false := by
        obtain hminus | hplus := hsign
        · subst hminus
          rfl
        · subst hplus
          rfl
      have hbs : bs.takeWhile digitByte = [] := by
        apply hnone
        simpa [numberPrefix, hsign, hdrop] using hdigits
      rw [numberPrefix, if_pos hsign, hbs]
      obtain hminus | hplus := hsign
      · subst hminus
        rfl
      · subst hplus
        rfl
    · have hbs : (b :: bs).takeWhile digitByte = [] := by
        apply hnone
        simpa only [numberPrefix, if_neg hsign] using hdigits
      simp only [numberPrefix, if_neg hsign, hbs, denoted]

/-! ## The call -/

theorem uartRead_eq {arg : Arg} (harg : checkFormat arg = .ok mode) :
    uartRead c signed arg results = .ok ((readLoop signed mode [] 0 results).map fun r =>
      (if mode = .number then .integer (luaTointeger c r.1).toInt else .string r.1, r.2)) := by
  rw [uartRead, harg]
  rfl

theorem expected_number (hends : NumberEnds results) :
    ∃ n, expected .number results = some (numberPrefix (delivered results), n) := by
  by_cases hdelimiter : (numberPrefix (delivered results)).length < (delivered results).length
  · exact ⟨_, if_pos hdelimiter⟩
  · have htimeout : none ∈ results := hends.resolve_left hdelimiter
    exact ⟨_, (if_neg hdelimiter).trans (if_pos htimeout)⟩

theorem expected_number_waiting (hwaits : ¬ NumberEnds results) :
    expected .number results = none := by
  obtain ⟨hdelimiter, htimeout⟩ := not_or.mp hwaits
  exact (if_neg hdelimiter).trans (if_neg htimeout)

/-- **Reading a number** is right exactly when it does not end, or is an `int`. -/
theorem readsRight_number_iff {arg : Arg} (harg : checkFormat arg = .ok .number) :
    ReadsRight c signed arg .number results ↔
      (NumberEnds results → -2 ^ 31 ≤ denoted (numberPrefix (delivered results)) ∧
        denoted (numberPrefix (delivered results)) < 2 ^ 31) := by
  have hvalue := @luaTointeger_eq_iff c (numberPrefix (delivered results))
    (denoted_numberPrefix (delivered results))
  rw [ReadsRight, uartRead_eq harg, readLoop_eq_expected (by simp)]
  by_cases hends : NumberEnds results
  · obtain ⟨n, hn⟩ := expected_number hends
    rw [hn, ← hvalue]
    simp [hends]
  · rw [expected_number_waiting hends]
    simp [hends]

theorem head?_eq_none_iff :
    results.head? = some none ↔ none ∈ results ∧ delivered results = [] := by
  cases results with
  | nil => simp
  | cons result results =>
    cases result with
    | none => simp [delivered]
    | some res => simp [delivered]

/-- **Reading no characters** is right exactly when the first result is a timeout. -/
theorem readsRight_zero_iff {arg : Arg} (harg : checkFormat arg = .ok (.maxsize 0)) :
    ReadsRight c signed arg (.maxsize 0) results ↔ results.head? = some none := by
  have hexpected : expected (.maxsize 0) results = some ([], 0) := by
    simp [expected, wanted]
  rw [ReadsRight, uartRead_eq harg, readLoop_zero, hexpected, head?_eq_none_iff]
  by_cases htimeout : none ∈ results
  · simp [htimeout]
  · simp [htimeout]

/-- **The formats of `uart.read`.**  Every format reads what it says, and no more, but for a maximum
size of 0 where something comes, and for a number that is no `int`. -/
theorem readsRight_iff {arg : Arg} (harg : checkFormat arg = .ok mode) :
    ReadsRight c signed arg mode results ↔
      (mode = .maxsize 0 → results.head? = some none) ∧
        (mode = .number → NumberEnds results →
          -2 ^ 31 ≤ denoted (numberPrefix (delivered results)) ∧
            denoted (numberPrefix (delivered results)) < 2 ^ 31) := by
  by_cases hzero : mode = .maxsize 0
  · subst hzero
    simp [readsRight_zero_iff harg]
  · by_cases hnumber : mode = .number
    · subst hnumber
      simp [readsRight_number_iff harg]
    · rw [ReadsRight, uartRead_eq harg, readLoop_eq_expected hzero]
      simp [hzero, hnumber]

/-- An `int` is converted to itself. -/
def wrapping : Conversion where
  convert := Int32.ofInt
  exact _ hle hlt := Int32.toInt_ofInt_of_le hle hlt

/-- `"*n"`, and the line `"-42\r\n"`. -/
theorem readsRight_minus_fortyTwo :
    ReadsRight wrapping true (.string [0x2A, 0x6E]) .number
      [some 0x2D, some 0x34, some 0x32, some 0x0D, some 0x0A] :=
  (readsRight_iff rfl).mpr ⟨by simp, fun _ _ => ⟨by decide, by decide⟩⟩

/-- `uart.read( id, 0 )` receives what has come, up to the timeout. -/
theorem not_readsRight_zero :
    uartRead wrapping true (.number 0) [some 0x61, none] = .ok (some (.string [0x61], 1)) ∧
      ¬ ReadsRight wrapping true (.number 0) (.maxsize 0) [some 0x61, none] := by
  have hread : uartRead wrapping true (.number 0) [some 0x61, none] =
      .ok (some (.string [0x61], 1)) := by decide
  refine ⟨hread, ?_⟩
  intro hright
  rw [ReadsRight, hread] at hright
  exact absurd (Except.ok.inj hright) (by decide)

end Uart
