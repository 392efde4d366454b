import EluaWebServer.Lib.Json
import EluaWebServer.Lib.CString
import EluaWebServer.Lib.Buffer
import Mathlib.Data.List.DropRight
import Mathlib.Algebra.Ring.Int.Defs
import Mathlib.Algebra.Ring.Nat

/-!
# What `JSON_parse` scans

The parser of the module reads a copy of its argument, with a terminator behind it.  A pointer is
what of the copy is from there on, so that it moves by dropping bytes, and two pointers are equal
when as much is left behind them.  What `lua_error` does not return from is an error, and so is
what is read from behind the terminator.
-/

namespace JsonParse

open Json CString

/-- How the parser ends without a value.  `uneven` is put in for the places where `readString`
goes on after it has written less than it has counted. -/
inductive Stop where
  | raised (message : List UInt8)
  | fault
  | uneven
  | running
  deriving DecidableEq

abbrev Ptr := List UInt8

/-- A result, and where `*c` is left. -/
abbrev Result (α : Type) := Except Stop (α × Ptr)

def bytes (s : String) : List UInt8 := s.toList.map fun c => UInt8.ofNat c.toNat

def JSONError {α : Type} (msg : List UInt8) : Except Stop α := .error (.raised msg)

def orFault {α : Type} : Option α → Except Stop α
  | none => .error .fault
  | some a => .ok a

/-- `**c` -/
def deref : Ptr → Except Stop UInt8
  | [] => .error .fault
  | b :: _ => .ok b

/-- `JSONError(L, strcat(*c, msg))`.  The message goes to the end of what the copy holds. -/
def appendError {α : Type} (c : Ptr) (msg : List UInt8) : Except Stop α :=
  (orFault (Buffer.storeAll c (text c).length (msg ++ [0]))).bind fun c => JSONError (text c)

def passwhitespace : Ptr → Except Stop Ptr
  | [] => .error .fault
  | b :: c => if isWs b then passwhitespace c else .ok (b :: c)

/-! ## Literals -/

/-- What the readers of literals have in common. -/
def readWord (word : List UInt8) (value : Except Stop Value) (msg : List UInt8) (c : Ptr) :
    Result Value :=
  (orFault (startsWith word c)).bind fun same =>
    if same then value.map fun v => (v, c.drop word.length) else JSONError msg

def readFalse : Ptr → Result Value :=
  readWord falseText (.ok (.boolean false)) (bytes "JSON readFalse b0rked :c.")

/-- `lua_getfield` raises an error of its own where there is no global `json`. -/
def readNull (jsonThere : Bool) : Ptr → Result Value :=
  readWord nullText
    (if jsonThere then .ok .null else JSONError (bytes "attempt to index a nil value"))
    (bytes "JSON readNull b0rked :c.")

def readTrue : Ptr → Result Value :=
  readWord trueText (.ok (.boolean true)) (bytes "JSON readTrue b0rked :c.")

/-! ## Numbers -/

def isExponent (b : UInt8) : Bool := b = 0x65 || b = 0x45

def isSign (b : UInt8) : Bool := b = minus || b = plus

/-- The loop of `readNumber` that looks for the parts: `foundDec`, `foundExp` and `foundEnd`. -/
def findParts (foundDec foundExp : Option Ptr) : Ptr → Except Stop (Option Ptr × Option Ptr × Ptr)
  | [] => .error .fault
  | b :: c =>
      if isDigit b then findParts foundDec foundExp c
      else if b = decimalPoint then
        if foundDec.isSome || foundExp.isSome then JSONError (bytes "bad number format")
        else findParts (some (b :: c)) foundExp c
      else if isExponent b then
        if foundExp.isSome then JSONError (bytes "bad number format")
        else findParts foundDec (some (b :: c)) c
      else if isSign b then findParts foundDec foundExp c
      else .ok (foundDec, foundExp, b :: c)

/-- A loop over digits that ends at a character. -/
def passUntil (stop : UInt8 → Bool) : Ptr → Except Stop Ptr
  | [] => .error .fault
  | b :: c => if stop b then .ok (b :: c) else passUntil stop c

/-- A loop over digits that ends at a pointer. -/
def passTo (foundEnd : Ptr) : Ptr → Except Stop Ptr
  | [] => if foundEnd = [] then .ok [] else .error .fault
  | b :: c => if foundEnd.length = c.length + 1 then .ok (b :: c) else passTo foundEnd c

/-- The loop over digits that counts. -/
def passCount : Nat → Ptr → Except Stop Ptr
  | 0, c => .ok c
  | _ + 1, [] => .error .fault
  | n + 1, _ :: c => passCount n c

/-- The exponent, from its letter. -/
def passExponent (foundEnd c : Ptr) : Except Stop Ptr :=
  (deref c.tail).bind fun b => passTo foundEnd (if isSign b then c.tail.tail else c.tail)

/-- How many digits the last loop of `readNumber` takes, where `n` are found: it counts `exp` down
from `n - 1`, which is an `int`. -/
def countedDigits (n : Nat) : Nat := (Int.bmod (n - 1) (2 ^ 32) + 1).toNat

/-- The second half of `readNumber`, which adds up the digits. -/
def passDigits (foundDec foundExp : Option Ptr) (foundEnd c : Ptr) : Except Stop Ptr :=
  match foundDec, foundExp with
  | some _, some _ =>
      (passUntil (· = decimalPoint) c).bind fun c =>
        (passUntil isExponent c.tail).bind (passExponent foundEnd)
  | some _, none => (passUntil (· = decimalPoint) c).bind fun c => passTo foundEnd c.tail
  | none, some _ => (passUntil isExponent c).bind (passExponent foundEnd)
  | none, none => passCount (countedDigits (c.length - foundEnd.length)) c

/-- Where a number without its sign ends. -/
def passNumber (save : Ptr) : Except Stop Ptr :=
  (findParts none none save).bind fun (foundDec, foundExp, foundEnd) =>
    passDigits foundDec foundExp foundEnd save

/-- The text of a number stands for what its digits add up to. -/
def readNumber (c : Ptr) : Result Value :=
  (deref c).bind fun b =>
    (passNumber (if b = minus then c.tail else c)).map fun rest =>
      (.number (c.take (c.length - rest.length)), rest)

/-! ## Where numbers end -/

def isNumberByte (b : UInt8) : Bool := isDigit b || b = decimalPoint || isExponent b || isSign b

def isMark (b : UInt8) : Bool := b = decimalPoint || isExponent b

/-- At most one point and one exponent, in this order. -/
def wellMarked : Bool → Bool → List UInt8 → Bool
  | _, _, [] => true
  | dec, exp, b :: marks =>
      if b = decimalPoint then !dec && !exp && wellMarked true exp marks
      else !exp && wellMarked dec true marks

/-- What follows a number.  Of more than `2 ^ 31` digits without a mark not all are taken. -/
def unsignedRest (t : Ptr) : Option Ptr :=
  let marks := (t.takeWhile isNumberByte).filter isMark
  if wellMarked false false marks then
    if marks = [] then some (t.drop (countedDigits (t.takeWhile isNumberByte).length))
    else some (t.dropWhile isNumberByte)
  else none

def numberRest (t : Ptr) : Option Ptr :=
  unsignedRest (if t.head? = some minus then t.tail else t)

/-! ## Texts with a terminator -/

def Ends (c : Ptr) : Prop := [0] <:+ c

variable {c t rest num foundEnd : Ptr} {b : UInt8} {dec exp : Option Ptr} {stop : UInt8 → Bool}

theorem Ends.ne_nil (h : Ends c) : c ≠ [] := by
  rintro rfl
  exact absurd (List.suffix_nil.mp h) (List.cons_ne_nil _ _)

theorem Ends.zero_mem (h : Ends c) : 0 ∈ c := h.subset List.mem_cons_self

/-- The terminator is not passed with a byte that is none. -/
theorem Ends.of_suffix (h : Ends c) (hsuffix : b :: rest <:+ c) (hb : b ≠ 0) : Ends rest := by
  have hends : [0] <:+ b :: rest := List.suffix_of_suffix_length_le h hsuffix (by simp)
  rcases List.suffix_cons_iff.mp hends with heq | hrest
  · exact absurd (List.cons.inj heq).1.symm hb
  · exact hrest

theorem Ends.tail (h : Ends (b :: c)) (hb : b ≠ 0) : Ends c :=
  h.of_suffix (List.suffix_refl _) hb

theorem Ends.dropWhile (h : Ends c) {p : UInt8 → Bool} (hp : p 0 = false) :
    Ends (c.dropWhile p) := by
  induction c with
  | nil => exact h
  | cons b c ih =>
      rw [List.dropWhile_cons]
      split
      · rename_i hb
        refine ih (h.tail ?_)
        rintro rfl
        rw [hp] at hb
        cases hb
      · exact h

theorem Ends.skipWs (h : Ends c) : Ends (skipWs c) := Ends.dropWhile h rfl

theorem skipWs_suffix (c : Ptr) : skipWs c <:+ c := List.dropWhile_suffix _

theorem passwhitespace_eq (h : Ends c) : passwhitespace c = .ok (skipWs c) := by
  induction c with
  | nil => exact absurd rfl h.ne_nil
  | cons b c ih =>
      rw [passwhitespace, skipWs, List.dropWhile_cons]
      split
      · rename_i hb
        refine ih (h.tail ?_)
        rintro rfl
        cases hb
      · rfl

theorem skipWs_skipWs (c : Ptr) : skipWs (skipWs c) = skipWs c := List.dropWhile_idempotent isWs c

/-! ## Messages at the end of the copy -/

/-- The copy is longer than the string in it by the length of a message. -/
def HasRoom (c : Ptr) (msg : List UInt8) : Prop := (text c).length + msg.length < c.length

instance (c : Ptr) (msg : List UInt8) : Decidable (HasRoom c msg) :=
  inferInstanceAs (Decidable (_ < _))

theorem appendError_of_room {α : Type} {msg : List UInt8} (h : HasRoom c msg) :
    ∃ m, (appendError c msg : Except Stop α) = .error (.raised m) := by
  have hfits : (text c).length + (msg ++ [0]).length ≤ c.length := by
    rw [List.length_append, List.length_singleton]
    exact h
  rw [appendError, Buffer.storeAll_eq_splice hfits]
  exact ⟨_, rfl⟩

theorem appendError_of_not_room {α : Type} {msg : List UInt8} (h : ¬ HasRoom c msg) :
    (appendError c msg : Except Stop α) = .error .fault := by
  have hout : c.length < (text c).length + (msg ++ [0]).length := by
    rw [List.length_append, List.length_singleton]
    unfold HasRoom at h
    omega
  rw [appendError, Buffer.storeAll_eq_none hout (List.append_ne_nil_of_right_ne_nil _ nofun)]
  rfl

/-! ## Reading literals -/

theorem startsWith_of_ends {word : List UInt8} (hword : 0 ∉ word) (h : Ends c) :
    startsWith word c = some (word.isPrefixOf c) := by
  obtain ⟨xs, rfl⟩ := h
  rw [startsWith_eq hword, isPrefixOf_append_zero hword]

theorem readWord_eq {word msg : List UInt8} (hword : 0 ∉ word) (h : Ends c)
    (value : Except Stop Value) :
    readWord word value msg c =
      if word <+: c then value.map fun v => (v, c.drop word.length) else JSONError msg := by
  rw [readWord, startsWith_of_ends hword h]
  by_cases hstarts : word <+: c
  · rw [if_pos hstarts, List.isPrefixOf_iff_prefix.mpr hstarts]
    rfl
  · have hfalse : word.isPrefixOf c = false := by
      rw [Bool.eq_false_iff]
      exact fun htrue => hstarts (List.isPrefixOf_iff_prefix.mp htrue)
    rw [if_neg hstarts, hfalse]
    rfl

/-! ## Reading numbers -/

/-- The bytes that end a number are none of its own. -/
theorem not_numberByte (hb : isNumberByte b = false) :
    isDigit b = false ∧ b ≠ decimalPoint ∧ isExponent b = false ∧ isSign b = false := by
  simp only [isNumberByte, Bool.or_eq_false_iff, decide_eq_false_iff_not] at hb
  exact ⟨hb.1.1.1, hb.1.1.2, hb.1.2, hb.2⟩

theorem isMark_of_isDigit (hb : isDigit b = true) : isMark b = false := by
  rw [Bool.eq_false_iff]
  intro hmark
  simp only [isMark, isExponent, Bool.or_eq_true, decide_eq_true_eq] at hmark
  rcases hmark with rfl | rfl | rfl <;> cases hb

theorem isMark_of_isSign (hb : isSign b = true) : isMark b = false := by
  simp only [isSign, Bool.or_eq_true, decide_eq_true_eq] at hb
  rcases hb with rfl | rfl <;> rfl

/-- **The parts of a number** are found where it is well marked. -/
theorem findParts_append (hnum : ∀ x ∈ num, isNumberByte x = true) (hb : isNumberByte b = false)
    (dec exp : Option Ptr) (rest : Ptr) :
    if wellMarked dec.isSome exp.isSome (num.filter isMark) then
      ∃ dec' exp', findParts dec exp (num ++ b :: rest) = .ok (dec', exp', b :: rest) ∧
        dec'.isSome = (dec.isSome || (num.filter isMark).any (· = decimalPoint)) ∧
        exp'.isSome = (exp.isSome || (num.filter isMark).any isExponent)
    else ∃ m, findParts dec exp (num ++ b :: rest) = .error (.raised m) := by
  induction num generalizing dec exp with
  | nil =>
      obtain ⟨hdigit, hpoint, hexp, hsign⟩ := not_numberByte hb
      rw [List.filter_nil, wellMarked, if_pos rfl]
      refine ⟨dec, exp, ?_, (Bool.or_false _).symm, (Bool.or_false _).symm⟩
      rw [List.nil_append, findParts, hdigit, if_neg hpoint, hexp, hsign]
      rfl
  | cons x num ih =>
      have hx := hnum x List.mem_cons_self
      have hrest := ih fun y hy => hnum y (List.mem_cons_of_mem x hy)
      rw [List.cons_append, findParts]
      by_cases hdigit : isDigit x = true
      · rw [List.filter_cons_of_neg (Bool.not_eq_true _ ▸ isMark_of_isDigit hdigit), if_pos hdigit]
        exact hrest dec exp
      · rw [if_neg hdigit]
        by_cases hpoint : x = decimalPoint
        · subst hpoint
          rw [List.filter_cons_of_pos (by decide), wellMarked, if_pos rfl, if_pos rfl]
          cases hdec : dec.isSome || exp.isSome with
          | true =>
              have hneither : (!dec.isSome && !exp.isSome) = false := by
                rw [← Bool.not_or, hdec]
                rfl
              rw [hneither, Bool.false_and, if_neg Bool.false_ne_true]
              exact ⟨_, rfl⟩
          | false =>
              obtain ⟨hnodec, hnoexp⟩ := Bool.or_eq_false_iff.mp hdec
              have h := hrest (some (decimalPoint :: (num ++ b :: rest))) exp
              simpa only [hnodec, hnoexp, Option.isSome_some, Bool.not_false, Bool.true_and,
                Bool.false_or, Bool.true_or, List.any_cons, decide_true, if_neg Bool.false_ne_true,
                show isExponent decimalPoint = false from rfl] using h
        · rw [if_neg hpoint]
          by_cases hexponent : isExponent x = true
          · have hmark : isMark x = true := by
              rw [isMark, hexponent, Bool.or_true]
            rw [List.filter_cons_of_pos hmark, wellMarked, if_neg hpoint, if_pos hexponent]
            cases hexp : exp.isSome with
            | true => exact ⟨_, rfl⟩
            | false =>
                have h := hrest dec (some (x :: (num ++ b :: rest)))
                simpa only [Option.isSome_some, Bool.not_false, Bool.true_and, Bool.false_or,
                  Bool.true_or, List.any_cons, hexponent, decide_eq_false hpoint,
                  if_neg Bool.false_ne_true] using h
          · have hsign : isSign x = true := by
              simp only [isNumberByte, Bool.or_eq_true, decide_eq_true_eq] at hx
              rcases hx with ((hx | hx) | hx) | hx
              · exact absurd hx hdigit
              · exact absurd hx hpoint
              · exact absurd hx hexponent
              · exact hx
            rw [List.filter_cons_of_neg (Bool.not_eq_true _ ▸ isMark_of_isSign hsign),
              if_neg hexponent, if_pos hsign]
            exact hrest dec exp

/-- A loop that looks for a byte ends at the first. -/
theorem passUntil_append (h : ∃ x ∈ num, stop x = true) (rest : Ptr) :
    ∃ front x back, num = front ++ x :: back ∧ stop x = true ∧ (∀ y ∈ front, stop y = false) ∧
      passUntil stop (num ++ rest) = .ok (x :: back ++ rest) := by
  induction num with
  | nil =>
      obtain ⟨x, hx, -⟩ := h
      cases hx
  | cons x num ih =>
      rw [List.cons_append, passUntil]
      by_cases hstop : stop x = true
      · rw [if_pos hstop]
        exact ⟨[], x, num, rfl, hstop, nofun, rfl⟩
      · rw [if_neg hstop]
        have hlater : ∃ y ∈ num, stop y = true := by
          obtain ⟨y, hy, hstopy⟩ := h
          rcases List.mem_cons.mp hy with rfl | hy
          · exact absurd hstopy hstop
          · exact ⟨y, hy, hstopy⟩
        obtain ⟨front, y, back, rfl, hy, hfront, hpass⟩ := ih hlater
        refine ⟨x :: front, y, back, rfl, hy, ?_, hpass⟩
        intro z hz
        rcases List.mem_cons.mp hz with rfl | hz
        · exact Bool.eq_false_iff.mpr hstop
        · exact hfront z hz

theorem passTo_append (num foundEnd : Ptr) : passTo foundEnd (num ++ foundEnd) = .ok foundEnd := by
  induction num with
  | nil =>
      cases foundEnd with
      | nil => rfl
      | cons b c => rw [List.nil_append, passTo, List.length_cons, if_pos rfl]
  | cons x num ih =>
      have hne : foundEnd.length ≠ (num ++ foundEnd).length + 1 := by
        rw [List.length_append]
        omega
      rw [List.cons_append, passTo, if_neg hne, ih]

theorem passExponent_append (hb : isNumberByte b = false) (x : UInt8) (num rest : Ptr) :
    passExponent (b :: rest) (x :: num ++ b :: rest) = .ok (b :: rest) := by
  rw [passExponent, List.cons_append, List.tail_cons]
  cases num with
  | nil =>
      have hsign := (not_numberByte hb).2.2.2
      show passTo (b :: rest) (if isSign b then _ else _) = _
      rw [hsign, if_neg Bool.false_ne_true]
      exact passTo_append [] _
  | cons y num =>
      show passTo (b :: rest) (if isSign y then num ++ b :: rest else y :: num ++ b :: rest) = _
      split
      · exact passTo_append _ _
      · exact passTo_append _ _

theorem passCount_eq {n : Nat} (h : n ≤ c.length) : passCount n c = .ok (c.drop n) := by
  induction n generalizing c with
  | zero => rfl
  | succ n ih =>
      cases c with
      | nil => exact absurd h (Nat.not_succ_le_zero n)
      | cons b c => exact ih (Nat.le_of_succ_le_succ h)

theorem countedDigits_le (n : Nat) : countedDigits n ≤ n := by
  have hle := @Int.bmod_le ((n : Int) - 1) (2 ^ 32) (by decide)
  have hmod := Int.bmod_def ((n : Int) - 1) (2 ^ 32)
  rw [countedDigits]
  split at hmod <;> omega

/-- Nothing is marked after an exponent. -/
theorem eq_nil_of_wellMarked_exp {d : Bool} {marks : List UInt8}
    (h : wellMarked d true marks = true) : marks = [] := by
  cases marks with
  | nil => rfl
  | cons b marks =>
      rw [wellMarked] at h
      split at h
      · rw [Bool.not_true, Bool.and_false, Bool.false_and] at h
        cases h
      · cases h

/-- There is no mark in front of the point. -/
theorem eq_nil_of_wellMarked_point {front marks : List UInt8}
    (h : wellMarked false false (front ++ decimalPoint :: marks) = true)
    (hfront : ∀ x ∈ front, x ≠ decimalPoint) : front = [] := by
  cases front with
  | nil => rfl
  | cons x front =>
      rw [List.cons_append, wellMarked, if_neg (hfront x List.mem_cons_self)] at h
      have hnil := eq_nil_of_wellMarked_exp (Bool.and_eq_true_iff.mp h).2
      exact absurd hnil (List.append_ne_nil_of_right_ne_nil _ (List.cons_ne_nil _ _))

theorem exists_mem_of_any_filter {p q : UInt8 → Bool} (h : (num.filter q).any p = true) :
    ∃ x ∈ num, p x = true := by
  obtain ⟨x, hx, hp⟩ := List.any_eq_true.mp h
  exact ⟨x, (List.mem_filter.mp hx).1, hp⟩

/-- **The digits of a number** are passed to its end, where it has a mark. -/
theorem passDigits_append (hb : isNumberByte b = false) (rest : Ptr)
    (hmarked : wellMarked false false (num.filter isMark) = true)
    (hdec : dec.isSome = (num.filter isMark).any (· = decimalPoint))
    (hexp : exp.isSome = (num.filter isMark).any isExponent) :
    passDigits dec exp (b :: rest) (num ++ b :: rest) =
      .ok (if num.filter isMark = [] then (num ++ b :: rest).drop (countedDigits num.length)
        else b :: rest) := by
  have hmarks : (num.filter isMark).any (· = decimalPoint) = true ∨
      (num.filter isMark).any isExponent = true → num.filter isMark ≠ [] := by
    intro hany hnil
    rw [hnil] at hany
    rcases hany with h | h <;> cases h
  cases dec with
  | none =>
      cases exp with
      | none =>
          have hnil : num.filter isMark = [] := by
            rw [List.filter_eq_nil_iff]
            intro x hx hmark
            have hmem := List.mem_filter.mpr ⟨hx, hmark⟩
            have hpoint := List.any_eq_false.mp hdec.symm x hmem
            have hexponent := List.any_eq_false.mp hexp.symm x hmem
            rcases Bool.or_eq_true_iff.mp hmark with h | h
            · exact hpoint h
            · exact hexponent h
          have hlength : (num ++ b :: rest).length - (b :: rest).length = num.length := by
            rw [List.length_append, Nat.add_sub_cancel]
          have hle := countedDigits_le num.length
          rw [if_pos hnil]
          show passCount (countedDigits ((num ++ b :: rest).length - _)) _ = _
          rw [hlength]
          refine passCount_eq ?_
          rw [List.length_append]
          omega
      | some foundExp =>
          obtain ⟨front, x, back, hsplit, -, -, hpass⟩ :=
            passUntil_append (exists_mem_of_any_filter hexp.symm) (b :: rest)
          rw [if_neg (hmarks (.inr hexp.symm))]
          show (passUntil isExponent _).bind _ = _
          rw [hpass]
          exact passExponent_append hb x back rest
  | some foundDec =>
      obtain ⟨front, x, back, hsplit, hx, hfront, hpass⟩ :=
        passUntil_append (exists_mem_of_any_filter hdec.symm) (b :: rest)
      rw [if_neg (hmarks (.inl hdec.symm))]
      cases exp with
      | none =>
          show (passUntil (· = decimalPoint) _).bind _ = _
          rw [hpass]
          exact passTo_append back _
      | some foundExp =>
          obtain rfl : x = decimalPoint := of_decide_eq_true hx
          -- the exponent is behind the point
          have hlater : ∃ y ∈ back, isExponent y = true := by
            rw [hsplit, List.filter_append, List.filter_cons_of_pos (by decide)] at hmarked hexp
            have hnil := eq_nil_of_wellMarked_point hmarked (by
              intro y hy hpoint
              have hnot := hfront y (List.mem_filter.mp hy).1
              rw [decide_eq_true hpoint] at hnot
              cases hnot)
            rw [hnil, List.nil_append, List.any_cons] at hexp
            exact exists_mem_of_any_filter hexp.symm
          obtain ⟨front', y, back', -, -, -, hpass'⟩ := passUntil_append hlater (b :: rest)
          show (passUntil (· = decimalPoint) _).bind _ = _
          rw [hpass]
          show (passUntil isExponent (back ++ b :: rest)).bind _ = _
          rw [hpass']
          exact passExponent_append hb y back' rest

theorem passNumber_eq {save : Ptr} (h : Ends save) :
    match unsignedRest save with
    | some rest => passNumber save = .ok rest
    | none => ∃ m, passNumber save = .error (.raised m) := by
  have hsplit := List.takeWhile_append_dropWhile (p := isNumberByte) (l := save)
  have hnum : ∀ x ∈ save.takeWhile isNumberByte, isNumberByte x = true :=
    fun x hx => List.mem_takeWhile_imp hx
  have hrest := (h.dropWhile (p := isNumberByte) rfl).ne_nil
  obtain ⟨x, rest, hx⟩ := List.exists_cons_of_ne_nil hrest
  have hxend : isNumberByte x = false := by
    have hhead := List.head_dropWhile_not isNumberByte hrest
    simp only [hx, List.head_cons] at hhead
    exact hhead
  have hparts := findParts_append hnum hxend none none rest
  rw [unsignedRest]
  rw [hx] at hsplit ⊢
  generalize save.takeWhile isNumberByte = num at *
  rw [← hsplit, passNumber]
  simp only [Option.isSome_none, Bool.false_or] at hparts
  by_cases hmarked : wellMarked false false (num.filter isMark) = true
  · rw [if_pos hmarked] at hparts ⊢
    obtain ⟨dec, exp, hfind, hdec, hexp⟩ := hparts
    have hdigits := passDigits_append hxend rest hmarked hdec hexp
    rw [hfind]
    split
    · rename_i heq
      rw [← apply_ite some] at heq
      rw [← Option.some.inj heq]
      exact hdigits
    · rename_i heq
      rw [← apply_ite some] at heq
      cases heq
  · rw [if_neg hmarked] at hparts ⊢
    obtain ⟨m, hfind⟩ := hparts
    exact ⟨m, by rw [hfind]; rfl⟩

/-- **Reading a number** ends where it does, or with an error. -/
theorem readNumber_eq (h : Ends c) :
    match numberRest c with
    | some rest => ∃ v, readNumber c = .ok (v, rest)
    | none => ∃ m, readNumber c = .error (.raised m) := by
  cases c with
  | nil => exact absurd rfl h.ne_nil
  | cons b t =>
      have hsave : (if (b :: t).head? = some minus then (b :: t).tail else b :: t) =
          if b = minus then (b :: t).tail else b :: t := by
        simp only [List.head?_cons, Option.some.injEq]
      have hends : Ends (if b = minus then (b :: t).tail else b :: t) := by
        split
        · rename_i hb
          exact h.tail (hb ▸ by decide)
        · exact h
      have hpass := passNumber_eq hends
      have hread : readNumber (b :: t) =
          (passNumber (if b = minus then (b :: t).tail else b :: t)).map fun rest =>
            (.number ((b :: t).take ((b :: t).length - rest.length)), rest) := rfl
      rw [numberRest, hsave, hread]
      cases hrest : unsignedRest (if b = minus then (b :: t).tail else b :: t) with
      | none =>
          rw [hrest] at hpass
          obtain ⟨m, hpass⟩ := hpass
          exact ⟨m, by rw [hpass]; rfl⟩
      | some rest =>
          rw [hrest] at hpass
          exact ⟨_, by rw [hpass]; rfl⟩

/-- What follows a number is behind its first bytes, and not behind its last. -/
theorem unsignedRest_suffix (h : unsignedRest t = some rest) :
    t.dropWhile isNumberByte <:+ rest ∧ rest <:+ t := by
  rw [unsignedRest] at h
  split_ifs at h
  · obtain rfl := Option.some.inj h
    refine ⟨?_, List.drop_suffix _ _⟩
    have hle := countedDigits_le (t.takeWhile isNumberByte).length
    have hdrop : t.drop (countedDigits (t.takeWhile isNumberByte).length) =
        (t.takeWhile isNumberByte).drop (countedDigits (t.takeWhile isNumberByte).length) ++
          t.dropWhile isNumberByte := by
      rw [← List.drop_append_of_le_length hle, List.takeWhile_append_dropWhile]
    rw [hdrop]
    exact List.suffix_append _ _
  · obtain rfl := Option.some.inj h
    exact ⟨List.suffix_refl _, List.dropWhile_suffix _⟩

theorem numberRest_suffix (h : numberRest t = some rest) : rest <:+ t := by
  have hsuffix := (unsignedRest_suffix h).2
  split at hsuffix
  · exact hsuffix.trans (List.tail_suffix t)
  · exact hsuffix

/-- A number stops before the terminator. -/
theorem Ends.numberRest (hends : Ends t) (h : numberRest t = some rest) : Ends rest := by
  refine (Ends.dropWhile ?_ rfl).trans (unsignedRest_suffix h).1
  split
  · rename_i hhead
    cases t with
    | nil => exact absurd rfl hends.ne_nil
    | cons b t =>
        obtain rfl := Option.some.inj hhead
        exact hends.tail (by decide)
  · exact hends

end JsonParse
