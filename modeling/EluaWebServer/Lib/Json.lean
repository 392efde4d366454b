import Mathlib.Data.List.Basic

/-!
# JSON texts

A reader of the JSON grammar over bytes.  Strings are read to the UTF-8 of
their characters, and of a number the reader keeps the text.  What is not a
JSON text has no result.
-/

namespace Json

def quotationMark : UInt8 := 0x22
def reverseSolidus : UInt8 := 0x5C
def beginArray : UInt8 := 0x5B
def endArray : UInt8 := 0x5D
def beginObject : UInt8 := 0x7B
def endObject : UInt8 := 0x7D
def nameSeparator : UInt8 := 0x3A
def valueSeparator : UInt8 := 0x2C
def minus : UInt8 := 0x2D
def plus : UInt8 := 0x2B
def decimalPoint : UInt8 := 0x2E
def zero : UInt8 := 0x30

/-- `"null"`, `"true"` and `"false"`. -/
def nullText : List UInt8 := [0x6E, 0x75, 0x6C, 0x6C]
def trueText : List UInt8 := [0x74, 0x72, 0x75, 0x65]
def falseText : List UInt8 := [0x66, 0x61, 0x6C, 0x73, 0x65]

/-- What a JSON text stands for. -/
inductive Value where
  | null
  | boolean (b : Bool)
  | number (text : List UInt8)
  | string (s : List UInt8)
  | array (items : List Value)
  | object (members : List (List UInt8 × Value))

/-- Space, tab, line feed and carriage return. -/
def isWs (b : UInt8) : Bool := b = 0x20 || b = 0x09 || b = 0x0A || b = 0x0D

def skipWs (c : List UInt8) : List UInt8 := c.dropWhile isWs

/-! ## Strings -/

def hexDigit (b : UInt8) : Option Nat :=
  if 0x30 ≤ b ∧ b ≤ 0x39 then some (b.toNat - 0x30)
  else if 0x61 ≤ b ∧ b ≤ 0x66 then some (b.toNat - 0x61 + 10)
  else if 0x41 ≤ b ∧ b ≤ 0x46 then some (b.toNat - 0x41 + 10)
  else none

/-- The value of four hexadecimal digits. -/
def hex4 (a b c d : UInt8) : Option Nat :=
  (hexDigit a).bind fun a =>
    (hexDigit b).bind fun b =>
      (hexDigit c).bind fun c =>
        (hexDigit d).map fun d => a * 4096 + b * 256 + c * 16 + d

/-- The characters with an escape of two characters. -/
def simpleEscape (b : UInt8) : Option UInt8 :=
  if b = quotationMark then some quotationMark
  else if b = reverseSolidus then some reverseSolidus
  else if b = 0x2F then some 0x2F
  else if b = 0x62 then some 0x08
  else if b = 0x66 then some 0x0C
  else if b = 0x6E then some 0x0A
  else if b = 0x72 then some 0x0D
  else if b = 0x74 then some 0x09
  else none

def utf8 (cs : List Char) : List UInt8 := cs.flatMap String.utf8EncodeChar

/-- A code unit of UTF-16 that is a character of its own. -/
def isScalar (u : Nat) : Bool := u < 0xD800 || 0xE000 ≤ u

/-- The character of two surrogates. -/
def surrogates (high low : Nat) : Option Char :=
  if 0xD800 ≤ high ∧ high < 0xDC00 ∧ 0xDC00 ≤ low ∧ low < 0xE000 then
    some (Char.ofNat (0x10000 + (high - 0xD800) * 0x400 + (low - 0xDC00)))
  else none

/-- What comes after the opening quotation mark: the string, and the rest of the
text. -/
def stringBody : List UInt8 → Option (List UInt8 × List UInt8)
  | [] => none
  | b :: c =>
      if b = quotationMark then some ([], c)
      else if b = reverseSolidus then
        match c with
        | [] => none
        | e :: c =>
            match simpleEscape e with
            | some x => (stringBody c).map fun (s, c) => (x :: s, c)
            | none =>
                if e = 0x75 then
                  match c with
                  | h0 :: h1 :: h2 :: h3 :: c =>
                      match hex4 h0 h1 h2 h3 with
                      | none => none
                      | some u =>
                          if isScalar u then
                            (stringBody c).map fun (s, c) => (utf8 [Char.ofNat u] ++ s, c)
                          else
                            match c with
                            | b0 :: b1 :: l0 :: l1 :: l2 :: l3 :: c =>
                                if b0 = reverseSolidus ∧ b1 = 0x75 then
                                  ((hex4 l0 l1 l2 l3).bind (surrogates u)).bind fun x =>
                                    (stringBody c).map fun (s, c) => (utf8 [x] ++ s, c)
                                else none
                            | _ => none
                  | _ => none
                else none
      else if b < 0x20 then none
      else (stringBody c).map fun (s, c) => (b :: s, c)

/-- The name of a member. -/
def name (c : List UInt8) : Option (List UInt8 × List UInt8) :=
  match skipWs c with
  | [] => none
  | b :: c => if b = quotationMark then stringBody c else none

/-! ## Numbers -/

def isDigit (b : UInt8) : Bool := 0x30 ≤ b && b ≤ 0x39

/-- At least one digit: what follows them. -/
def digits (c : List UInt8) : Option (List UInt8) :=
  if c.takeWhile isDigit = [] then none else some (c.dropWhile isDigit)

/-- What follows an integer, which has no zeros in front. -/
def intPart : List UInt8 → Option (List UInt8)
  | [] => none
  | b :: c => if b = zero then some c else digits (b :: c)

/-- What follows a fraction, if there is one. -/
def fracPart : List UInt8 → Option (List UInt8)
  | [] => some []
  | b :: c => if b = decimalPoint then digits c else some (b :: c)

/-- What follows a sign, if there is one. -/
def signPart : List UInt8 → List UInt8
  | [] => []
  | b :: c => if b = minus ∨ b = plus then c else b :: c

/-- What follows an exponent, if there is one. -/
def expPart : List UInt8 → Option (List UInt8)
  | [] => some []
  | b :: c => if b = 0x65 ∨ b = 0x45 then digits (signPart c) else some (b :: c)

/-- What follows a number. -/
def afterNumber (c : List UInt8) : Option (List UInt8) :=
  ((intPart (if c.head? = some minus then c.tail else c)).bind fracPart).bind expPart

def number (c : List UInt8) : Option (Value × List UInt8) :=
  (afterNumber c).map fun rest => (.number (c.take (c.length - rest.length)), rest)

/-! ## Values -/

/-- What follows a text that is expected. -/
def expect (text c : List UInt8) : Option (List UInt8) :=
  if text.isPrefixOf c then some (c.drop text.length) else none

mutual

/-- A value and the rest of the text, for a bound on how deep and how long
things are. -/
def read : Nat → List UInt8 → Option (Value × List UInt8)
  | 0, _ => none
  | n + 1, c =>
      match skipWs c with
      | [] => none
      | b :: c =>
          if b = quotationMark then (stringBody c).map fun (s, c) => (.string s, c)
          else if b = beginArray then
            if (skipWs c).head? = some endArray then some (.array [], (skipWs c).tail)
            else (elements n c).map fun (vs, c) => (.array vs, c)
          else if b = beginObject then
            if (skipWs c).head? = some endObject then some (.object [], (skipWs c).tail)
            else (members n c).map fun (ms, c) => (.object ms, c)
          else if b = 0x6E then (expect nullText (b :: c)).map fun c => (.null, c)
          else if b = 0x74 then (expect trueText (b :: c)).map fun c => (.boolean true, c)
          else if b = 0x66 then (expect falseText (b :: c)).map fun c => (.boolean false, c)
          else number (b :: c)

/-- The elements of an array, one at least, and its end. -/
def elements : Nat → List UInt8 → Option (List Value × List UInt8)
  | 0, _ => none
  | n + 1, c =>
      (read n c).bind fun (v, c) =>
        match skipWs c with
        | [] => none
        | b :: c =>
            if b = valueSeparator then (elements n c).map fun (vs, c) => (v :: vs, c)
            else if b = endArray then some ([v], c)
            else none

/-- The members of an object, one at least, and its end. -/
def members : Nat → List UInt8 → Option (List (List UInt8 × Value) × List UInt8)
  | 0, _ => none
  | n + 1, c =>
      (name c).bind fun (s, c) =>
        match skipWs c with
        | [] => none
        | b :: c =>
            if b = nameSeparator then
              (read n c).bind fun (v, c) =>
                match skipWs c with
                | [] => none
                | b :: c =>
                    if b = valueSeparator then (members n c).map fun (ms, c) => ((s, v) :: ms, c)
                    else if b = endObject then some ([(s, v)], c)
                    else none
            else none

end

/-- What a text stands for, if it is one. -/
def parse (text : List UInt8) : Option Value :=
  (read (text.length + 1) text).bind fun (v, rest) =>
    if skipWs rest = [] then some v else none

def IsUtf8 (text : List UInt8) : Prop := ∃ cs, text = utf8 cs

/-- **JSON texts.**  They follow the grammar and are in UTF-8. -/
def TextOf (text : List UInt8) (v : Value) : Prop := IsUtf8 text ∧ parse text = some v

/-! ## UTF-8 -/

theorem isUtf8_nil : IsUtf8 [] := ⟨[], rfl⟩

theorem isUtf8_append {s t : List UInt8} (hs : IsUtf8 s) (ht : IsUtf8 t) : IsUtf8 (s ++ t) := by
  obtain ⟨cs, rfl⟩ := hs
  obtain ⟨ds, rfl⟩ := ht
  exact ⟨cs ++ ds, List.flatMap_append.symm⟩

theorem utf8_ascii : ∀ n < 128, utf8 [Char.ofNat n] = [UInt8.ofNat n] := by
  decide +kernel

/-- What is known of all bytes of a text that is given. -/
theorem forall_of_all {P : UInt8 → Prop} [DecidablePred P] {t : List UInt8}
    (h : t.all (fun b => P b) = true) : ∀ b ∈ t, P b :=
  fun b hb => of_decide_eq_true (List.all_eq_true.mp h b hb)

theorem isUtf8_ascii {t : List UInt8} (h : ∀ b ∈ t, b < 0x80) : IsUtf8 t := by
  induction t with
  | nil => exact isUtf8_nil
  | cons b t ih =>
      have hb := utf8_ascii b.toNat (UInt8.lt_iff_toNat_lt.mp (h b List.mem_cons_self))
      rw [UInt8.ofNat_toNat] at hb
      exact isUtf8_append ⟨_, hb.symm⟩ (ih fun x hx => h x (List.mem_cons_of_mem b hx))

theorem isUtf8_of_all {t : List UInt8} (h : t.all (fun b => b < 0x80) = true) : IsUtf8 t :=
  isUtf8_ascii (forall_of_all h)

/-- The bytes of a character outside of ASCII. -/
theorem utf8EncodeChar_high {c : Char} (h : ¬c.val.toNat ≤ 0x7F) :
    ∀ b ∈ String.utf8EncodeChar c, 0x80 ≤ b := by
  have hlead : ∀ k m, 0 < m → k + m ≤ 256 → 128 ≤ k → ∀ x, (0x80 : UInt8) ≤ UInt8.ofNat (x % m + k) := by
    intro k m hm hkm hk x
    have hx := Nat.mod_lt x hm
    rw [UInt8.le_iff_toNat_le, UInt8.toNat_ofNat']
    change 128 ≤ _
    omega
  unfold String.utf8EncodeChar
  dsimp only
  rw [if_neg h]
  split
  · intro b hb
    rcases List.mem_cons.mp hb with rfl | hb
    · exact hlead _ _ (by decide) (by decide) (by decide) _
    · rw [List.mem_singleton.mp hb]
      exact hlead _ _ (by decide) (by decide) (by decide) _
  · split
    · intro b hb
      simp only [List.mem_cons, List.not_mem_nil, or_false] at hb
      rcases hb with rfl | rfl | rfl <;> exact hlead _ _ (by decide) (by decide) (by decide) _
    · intro b hb
      simp only [List.mem_cons, List.not_mem_nil, or_false] at hb
      rcases hb with rfl | rfl | rfl | rfl <;>
        exact hlead _ _ (by decide) (by decide) (by decide) _

theorem utf8EncodeChar_low {c : Char} (h : c.val.toNat ≤ 0x7F) :
    ∀ b ∈ String.utf8EncodeChar c, b < 0x80 := by
  intro b hb
  unfold String.utf8EncodeChar at hb
  dsimp only at hb
  rw [if_pos h] at hb
  rw [List.mem_singleton.mp hb, UInt8.lt_iff_toNat_lt, UInt8.toNat_ofNat']
  change _ < 128
  omega

theorem skipWs_cons {b : UInt8} (h : isWs b = false) (c : List UInt8) :
    skipWs (b :: c) = b :: c := by
  rw [skipWs, List.dropWhile_cons, h, if_neg Bool.false_ne_true]

/-! ## Reading strings -/

theorem stringBody_end (c : List UInt8) : stringBody (quotationMark :: c) = some ([], c) := by
  rw [stringBody.eq_def]
  exact if_pos rfl

theorem stringBody_plain {b : UInt8} (hquote : b ≠ quotationMark) (hback : b ≠ reverseSolidus)
    (hcontrol : 0x20 ≤ b) (c : List UInt8) :
    stringBody (b :: c) = (stringBody c).map fun (s, c) => (b :: s, c) := by
  rw [stringBody.eq_def]
  simp only [if_neg hquote, if_neg hback, if_neg (UInt8.not_lt.mpr hcontrol)]

theorem stringBody_simple {e x : UInt8} (h : simpleEscape e = some x) (c : List UInt8) :
    stringBody (reverseSolidus :: e :: c) = (stringBody c).map fun (s, c) => (x :: s, c) := by
  rw [stringBody.eq_def]
  simp only [show reverseSolidus ≠ quotationMark from by decide, if_false, if_true, h]

/-- The escape of a character of one code unit. -/
theorem stringBody_unicode {h0 h1 h2 h3 : UInt8} {u : Nat} (h : hex4 h0 h1 h2 h3 = some u)
    (hscalar : isScalar u = true) (c : List UInt8) :
    stringBody (reverseSolidus :: 0x75 :: h0 :: h1 :: h2 :: h3 :: c) =
      (stringBody c).map fun (s, c) => (utf8 [Char.ofNat u] ++ s, c) := by
  rw [stringBody.eq_def]
  simp only [show reverseSolidus ≠ quotationMark from by decide,
    show simpleEscape 0x75 = none from by decide, if_false, if_true, h, hscalar]

/-- An escape with something else than hexadecimal digits. -/
theorem stringBody_badHex {h0 h1 h2 h3 : UInt8} (h : hex4 h0 h1 h2 h3 = none)
    (c : List UInt8) :
    stringBody (reverseSolidus :: 0x75 :: h0 :: h1 :: h2 :: h3 :: c) = none := by
  rw [stringBody.eq_def]
  simp only [show reverseSolidus ≠ quotationMark from by decide,
    show simpleEscape 0x75 = none from by decide, if_false, if_true, h]

/-! ## Reading numbers -/

/-- What follows can be no part of a number. -/
def Delimited (rest : List UInt8) : Prop :=
  ∀ b ∈ rest.head?, isDigit b = false ∧ b ≠ decimalPoint ∧ b ≠ 0x65 ∧ b ≠ 0x45

theorem delimited_nil : Delimited [] := by
  intro b hb
  cases hb

/-- The texts of numbers with digits, and of their parts. -/
def Digits (ds : List UInt8) : Prop := ds ≠ [] ∧ ∀ b ∈ ds, isDigit b = true

def IntText (t : List UInt8) : Prop := t = [zero] ∨ Digits t ∧ t.head? ≠ some zero

def FracText (t : List UInt8) : Prop := t = [] ∨ ∃ ds, Digits ds ∧ t = decimalPoint :: ds

def ExpText (t : List UInt8) : Prop :=
  t = [] ∨ ∃ sign ds, (sign = minus ∨ sign = plus) ∧ Digits ds ∧ t = 0x65 :: sign :: ds

/-- The text of a number. -/
structure Numeral (t : List UInt8) : Prop where
  parts : ∃ sign int frac exp, t = sign ++ (int ++ (frac ++ exp)) ∧
    (sign = [] ∨ sign = [minus]) ∧ IntText int ∧ FracText frac ∧ ExpText exp

theorem digits_append {ds rest : List UInt8} (h : Digits ds)
    (hrest : ∀ b ∈ rest.head?, isDigit b = false) : digits (ds ++ rest) = some rest := by
  have hstop : rest.takeWhile isDigit = [] ∧ rest.dropWhile isDigit = rest := by
    cases rest with
    | nil => exact ⟨rfl, rfl⟩
    | cons b rest =>
        have hb := hrest b rfl
        exact ⟨List.takeWhile_cons_of_neg (by rw [hb]; decide),
          List.dropWhile_cons_of_neg (by rw [hb]; decide)⟩
  unfold digits
  rw [List.takeWhile_append_of_pos h.2, List.dropWhile_append_of_pos h.2, hstop.1, hstop.2,
    List.append_nil, if_neg h.1]

theorem intPart_append {t rest : List UInt8} (h : IntText t)
    (hrest : ∀ b ∈ rest.head?, isDigit b = false) : intPart (t ++ rest) = some rest := by
  rcases h with rfl | ⟨hdigits, hzero⟩
  · rw [List.singleton_append, intPart, if_pos rfl]
  · cases t with
    | nil => exact absurd rfl hdigits.1
    | cons b t =>
        have hb : b ≠ zero := fun heq => hzero (congrArg some heq)
        rw [List.cons_append, intPart, if_neg hb, ← List.cons_append]
        exact digits_append hdigits hrest

theorem fracPart_append {t rest : List UInt8} (h : FracText t)
    (hrest : ∀ b ∈ rest.head?, isDigit b = false ∧ b ≠ decimalPoint) :
    fracPart (t ++ rest) = some rest := by
  rcases h with rfl | ⟨ds, hdigits, rfl⟩
  · cases rest with
    | nil => rfl
    | cons b rest => rw [List.nil_append, fracPart, if_neg (hrest b rfl).2]
  · rw [List.cons_append, fracPart, if_pos rfl]
    exact digits_append hdigits fun b hb => (hrest b hb).1

theorem expPart_append {t rest : List UInt8} (h : ExpText t) (hrest : Delimited rest) :
    expPart (t ++ rest) = some rest := by
  rcases h with rfl | ⟨sign, ds, hsign, hdigits, rfl⟩
  · cases rest with
    | nil => rfl
    | cons b rest =>
        have hb := (hrest b rfl).2.2
        rw [List.nil_append, expPart, if_neg (not_or.mpr hb)]
  · rw [List.cons_append, List.cons_append, expPart, if_pos (Or.inl rfl), signPart, if_pos hsign]
    exact digits_append hdigits fun b hb => (hrest b hb).1

/-- A fraction and what follows it start like no digit. -/
theorem frac_head {frac rest : List UInt8} (h : FracText frac)
    (hrest : ∀ b ∈ rest.head?, isDigit b = false) :
    ∀ b ∈ (frac ++ rest).head?, isDigit b = false := by
  rcases h with rfl | ⟨ds, -, rfl⟩
  · exact hrest
  · intro b hb
    rw [List.cons_append, List.head?_cons, Option.mem_some_iff] at hb
    exact hb ▸ by decide

theorem exp_head {exp rest : List UInt8} (h : ExpText exp) (hrest : Delimited rest) :
    ∀ b ∈ (exp ++ rest).head?, isDigit b = false ∧ b ≠ decimalPoint := by
  rcases h with rfl | ⟨sign, ds, -, -, rfl⟩
  · exact fun b hb => ⟨(hrest b hb).1, (hrest b hb).2.1⟩
  · intro b hb
    rw [List.cons_append, List.head?_cons, Option.mem_some_iff] at hb
    exact hb ▸ by decide

/-- An integer starts with a digit. -/
theorem int_head {int : List UInt8} (h : IntText int) :
    ∃ b t, int = b :: t ∧ isDigit b = true := by
  rcases h with rfl | ⟨hdigits, -⟩
  · exact ⟨zero, [], rfl, by decide⟩
  · cases int with
    | nil => exact absurd rfl hdigits.1
    | cons b t => exact ⟨b, t, rfl, hdigits.2 b List.mem_cons_self⟩

/-- **Numbers are read to their end.** -/
theorem number_append {t rest : List UInt8} (h : Numeral t) (hrest : Delimited rest) :
    number (t ++ rest) = some (.number t, rest) := by
  obtain ⟨sign, int, frac, exp, rfl, hsign, hint, hfrac, hexp⟩ := h.parts
  have hunsigned : intPart (int ++ (frac ++ (exp ++ rest))) = some (frac ++ (exp ++ rest)) :=
    intPart_append hint (frac_head hfrac fun b hb => (exp_head hexp hrest b hb).1)
  have hafter : afterNumber (sign ++ (int ++ (frac ++ (exp ++ rest)))) = some rest := by
    unfold afterNumber
    have hskip : (if (sign ++ (int ++ (frac ++ (exp ++ rest)))).head? = some minus
        then (sign ++ (int ++ (frac ++ (exp ++ rest)))).tail
        else sign ++ (int ++ (frac ++ (exp ++ rest)))) = int ++ (frac ++ (exp ++ rest)) := by
      rcases hsign with rfl | rfl
      · obtain ⟨b, t, rfl, hb⟩ := int_head hint
        have hne : ¬ some b = some minus := by
          intro heq
          rw [Option.some.inj heq] at hb
          exact absurd hb (by decide)
        exact if_neg hne
      · exact if_pos rfl
    rw [hskip, hunsigned, Option.bind_some, fracPart_append hfrac (exp_head hexp hrest),
      Option.bind_some, expPart_append hexp hrest]
  have hassoc : sign ++ (int ++ (frac ++ exp)) ++ rest =
      sign ++ (int ++ (frac ++ (exp ++ rest))) := by
    simp only [List.append_assoc]
  unfold number
  rw [hassoc, hafter, Option.map_some, ← hassoc, List.length_append, Nat.add_sub_cancel_right,
    List.take_left]

/-! ## Reading values -/

/-- Reading a text at the start of a longer one, with any sufficient bound: its
value and all that comes after it, or nothing. -/
structure Reads (t : List UInt8) (r : Option Value) : Prop where
  start : ∃ b c, t = b :: c ∧ isWs b = false ∧ b ≠ endArray
  reads : ∀ n rest, t.length ≤ n → Delimited rest → read n (t ++ rest) = r.map fun v => (v, rest)

/-- Reading the name of a member at the start of a longer text. -/
structure ReadsName (t : List UInt8) (r : Option (List UInt8)) : Prop where
  start : ∃ b c, t = b :: c ∧ isWs b = false ∧ b ≠ endObject
  reads : ∀ rest, name (t ++ rest) = r.map fun s => (s, rest)

theorem read_quotationMark (n : Nat) (c : List UInt8) :
    read (n + 1) (quotationMark :: c) = (stringBody c).map fun (s, c) => (.string s, c) := by
  rw [read, skipWs_cons (by decide)]
  exact if_pos rfl

theorem read_beginArray {n : Nat} {b : UInt8} (hws : isWs b = false) (hend : b ≠ endArray)
    (c : List UInt8) :
    read (n + 1) (beginArray :: b :: c) =
      (elements n (b :: c)).map fun (vs, c) => (.array vs, c) := by
  rw [read, skipWs_cons (by decide)]
  have hhead : ¬ (skipWs (b :: c)).head? = some endArray := by
    rw [skipWs_cons hws]
    exact fun h => hend (Option.some.inj h)
  simp only [show beginArray ≠ quotationMark from by decide, if_false, if_true, if_neg hhead]

theorem read_beginObject {n : Nat} {b : UInt8} (hws : isWs b = false) (hend : b ≠ endObject)
    (c : List UInt8) :
    read (n + 1) (beginObject :: b :: c) =
      (members n (b :: c)).map fun (ms, c) => (.object ms, c) := by
  rw [read, skipWs_cons (by decide)]
  have hhead : ¬ (skipWs (b :: c)).head? = some endObject := by
    rw [skipWs_cons hws]
    exact fun h => hend (Option.some.inj h)
  simp only [show beginObject ≠ quotationMark from by decide,
    show beginObject ≠ beginArray from by decide, if_false, if_true, if_neg hhead]

/-- The elements after the first one. -/
def moreElements (ts : List (List UInt8)) : List UInt8 := ts.flatMap (valueSeparator :: ·)

/-- The text of a member. -/
def memberText (m : List UInt8 × List UInt8) : List UInt8 := m.1 ++ nameSeparator :: m.2

/-- The members after the first one. -/
def moreMembers (ms : List (List UInt8 × List UInt8)) : List UInt8 :=
  ms.flatMap fun m => valueSeparator :: memberText m

/-- All the results, if there are all. -/
def allSome {α : Type} : List (Option α) → Option (List α)
  | [] => some []
  | r :: rs => r.bind fun v => (allSome rs).map (v :: ·)

theorem delimited_cons {b : UInt8}
    (h : isDigit b = false ∧ b ≠ decimalPoint ∧ b ≠ 0x65 ∧ b ≠ 0x45) (rest : List UInt8) :
    Delimited (b :: rest) := by
  intro b' hb'
  exact Option.some.inj hb' ▸ h

theorem elements_reads : ∀ {ts : List (List UInt8)} {rs : List (Option Value)} {t : List UInt8}
    {r : Option Value} {n : Nat}, Reads t r → List.Forall₂ Reads ts rs →
    (t ++ moreElements ts).length < n → ∀ rest,
    elements n (t ++ (moreElements ts ++ endArray :: rest)) =
      (allSome (r :: rs)).map fun vs => (vs, rest)
  | ts, rs, t, r, 0, _, _, hn, _ => absurd hn (Nat.not_lt_zero _)
  | [], _, t, r, n + 1, hr, .nil, hn, rest => by
      rw [List.length_append] at hn
      have hread := hr.reads n (endArray :: rest) (by omega) (delimited_cons (by decide) rest)
      change elements (n + 1) (t ++ endArray :: rest) = _
      rw [elements, hread]
      cases r with
      | none => rfl
      | some v =>
          simp only [Option.map_some, Option.bind_some, skipWs_cons (b := endArray) (by decide),
            show endArray ≠ valueSeparator from by decide, if_false, if_true, allSome]
  | t' :: ts, r' :: rs, t, r, n + 1, hr, .cons hr' hrs, hn, rest => by
      have hmore : moreElements (t' :: ts) ++ endArray :: rest =
          valueSeparator :: (t' ++ (moreElements ts ++ endArray :: rest)) := by
        simp only [moreElements, List.flatMap_cons, List.cons_append, List.append_assoc]
      have hlength : (moreElements (t' :: ts)).length = (t' ++ moreElements ts).length + 1 := by
        simp only [moreElements, List.flatMap_cons, List.cons_append, List.length_cons]
      rw [List.length_append, hlength] at hn
      have hread := hr.reads n (valueSeparator :: (t' ++ (moreElements ts ++ endArray :: rest)))
        (by omega) (delimited_cons (by decide) _)
      have hrest := elements_reads hr' hrs (n := n) (by omega) rest
      rw [hmore, elements, hread]
      cases r with
      | none => rfl
      | some v =>
          simp only [Option.map_some, Option.bind_some, if_true,
            skipWs_cons (b := valueSeparator) (by decide), hrest]
          change _ = ((allSome (r' :: rs)).map (v :: ·)).map fun vs => (vs, rest)
          cases allSome (r' :: rs) <;> rfl

/-- **Arrays.**  An array is read if all of its elements are. -/
theorem reads_array {t : List UInt8} {ts : List (List UInt8)} {r : Option Value}
    {rs : List (Option Value)} (hr : Reads t r) (hrs : List.Forall₂ Reads ts rs) :
    Reads (beginArray :: (t ++ (moreElements ts ++ [endArray])))
      ((allSome (r :: rs)).map .array) where
  start := ⟨beginArray, _, rfl, by decide, by decide⟩
  reads := by
    intro n rest hn hrest
    obtain ⟨b, c, rfl, hws, hend⟩ := hr.start
    cases n with
    | zero => exact absurd hn (Nat.not_succ_le_zero _)
    | succ n =>
        have hlength : (b :: c ++ moreElements ts).length < n := by
          simp only [List.length_append, List.length_cons, List.length_nil] at hn ⊢
          omega
        have helements := elements_reads hr hrs hlength rest
        have htext : beginArray :: (b :: c ++ (moreElements ts ++ [endArray])) ++ rest =
            beginArray :: b :: (c ++ (moreElements ts ++ endArray :: rest)) := by
          simp only [List.cons_append, List.append_assoc, List.nil_append]
        rw [htext, read_beginArray hws hend, ← List.cons_append, helements]
        cases allSome (r :: rs) <;> rfl

/-- The result for a member. -/
def both (r : Option (List UInt8) × Option Value) : Option (List UInt8 × Value) :=
  r.1.bind fun s => r.2.map fun v => (s, v)

/-- Reading a member. -/
def ReadsMember (m : List UInt8 × List UInt8) (r : Option (List UInt8) × Option Value) : Prop :=
  ReadsName m.1 r.1 ∧ Reads m.2 r.2

theorem members_reads : ∀ {ms : List (List UInt8 × List UInt8)}
    {rs : List (Option (List UInt8) × Option Value)} {m : List UInt8 × List UInt8}
    {r : Option (List UInt8) × Option Value} {n : Nat}, ReadsMember m r →
    List.Forall₂ ReadsMember ms rs → (memberText m ++ moreMembers ms).length < n → ∀ rest,
    members n (memberText m ++ (moreMembers ms ++ endObject :: rest)) =
      (allSome ((r :: rs).map both)).map fun vs => (vs, rest)
  | ms, rs, m, r, 0, _, _, hn, _ => absurd hn (Nat.not_lt_zero _)
  | ms, rs, (name, t), (rname, r), n + 1, ⟨hname, hr⟩, hrs, hn, rest => by
      change Reads t r at hr
      simp only [memberText, List.length_append, List.length_cons] at hn
      have hreadName := hname.reads (nameSeparator :: (t ++ (moreMembers ms ++ endObject :: rest)))
      rw [memberText, List.append_assoc, List.cons_append, members, hreadName]
      cases rname with
      | none => rfl
      | some s =>
          simp only [Option.map_some, Option.bind_some, if_true,
            skipWs_cons (b := nameSeparator) (by decide)]
          cases hrs with
          | nil =>
              have hread := hr.reads n (endObject :: rest) (by omega)
                (delimited_cons (by decide) rest)
              simp only [moreMembers, List.flatMap_nil, List.nil_append, hread]
              cases r with
              | none => rfl
              | some v =>
                  simp only [Option.map_some, Option.bind_some, if_true, if_false,
                    skipWs_cons (b := endObject) (by decide),
                    show endObject ≠ valueSeparator from by decide]
                  rfl
          | @cons m' r' ms rs hr' hrs =>
              have hmore : moreMembers (m' :: ms) ++ endObject :: rest =
                  valueSeparator :: (memberText m' ++ (moreMembers ms ++ endObject :: rest)) := by
                simp only [moreMembers, List.flatMap_cons, List.cons_append, List.append_assoc]
              have hlength : (moreMembers (m' :: ms)).length =
                  (memberText m' ++ moreMembers ms).length + 1 := by
                simp only [moreMembers, List.flatMap_cons, List.cons_append, List.length_cons]
              rw [hlength] at hn
              have hread := hr.reads n
                (valueSeparator :: (memberText m' ++ (moreMembers ms ++ endObject :: rest)))
                (by omega) (delimited_cons (by decide) _)
              have hrest := members_reads hr' hrs (n := n) (by omega) rest
              rw [hmore, hread]
              cases r with
              | none => rfl
              | some v =>
                  simp only [Option.map_some, Option.bind_some, if_true,
                    skipWs_cons (b := valueSeparator) (by decide), hrest]
                  change _ = ((allSome ((r' :: rs).map both)).map ((s, v) :: ·)).map
                    fun vs => (vs, rest)
                  cases allSome ((r' :: rs).map both) <;> rfl

/-- **Objects.**  An object is read if all of its members are. -/
theorem reads_object {m : List UInt8 × List UInt8} {ms : List (List UInt8 × List UInt8)}
    {r : Option (List UInt8) × Option Value} {rs : List (Option (List UInt8) × Option Value)}
    (hr : ReadsMember m r) (hrs : List.Forall₂ ReadsMember ms rs) :
    Reads (beginObject :: (memberText m ++ (moreMembers ms ++ [endObject])))
      ((allSome ((r :: rs).map both)).map .object) where
  start := ⟨beginObject, _, rfl, by decide, by decide⟩
  reads := by
    intro n rest hn hrest
    obtain ⟨b, c, hstart, hws, hend⟩ := hr.1.start
    have hmember : memberText m = b :: (c ++ nameSeparator :: m.2) := by
      rw [memberText, hstart, List.cons_append]
    cases n with
    | zero => exact absurd hn (Nat.not_succ_le_zero _)
    | succ n =>
        have hlength : (memberText m ++ moreMembers ms).length < n := by
          simp only [List.length_append, List.length_cons, List.length_nil] at hn ⊢
          omega
        have hmembers := members_reads hr hrs hlength rest
        have htext : beginObject :: (memberText m ++ (moreMembers ms ++ [endObject])) ++ rest =
            beginObject :: (memberText m ++ (moreMembers ms ++ endObject :: rest)) := by
          simp only [List.cons_append, List.append_assoc, List.nil_append]
        rw [hmember, List.cons_append] at hmembers
        rw [htext, hmember, List.cons_append, read_beginObject hws hend, hmembers]
        cases allSome ((r :: rs).map both) <;> rfl

/-- A whole text. -/
theorem parse_of_reads {t : List UInt8} {r : Option Value} (h : Reads t r) : parse t = r := by
  have hread := h.reads (t.length + 1) [] (Nat.le_succ _) delimited_nil
  rw [List.append_nil] at hread
  rw [parse, hread]
  cases r <;> rfl

/-- A number starts with a minus sign or a digit. -/
theorem numeral_head {t : List UInt8} (h : Numeral t) :
    ∃ b c, t = b :: c ∧ (b = minus ∨ isDigit b = true) := by
  obtain ⟨sign, int, frac, exp, rfl, hsign, hint, -, -⟩ := h.parts
  rcases hsign with rfl | rfl
  · obtain ⟨b, c, rfl, hb⟩ := int_head hint
    exact ⟨b, _, rfl, .inr hb⟩
  · exact ⟨minus, _, rfl, .inl rfl⟩

/-- What starts a number starts nothing else. -/
theorem numeral_start {b : UInt8} (h : b = minus ∨ isDigit b = true) :
    isWs b = false ∧ b ≠ quotationMark ∧ b ≠ beginArray ∧ b ≠ endArray ∧ b ≠ beginObject ∧
      b ≠ endObject ∧ b ≠ 0x6E ∧ b ≠ 0x74 ∧ b ≠ 0x66 := by
  rcases h with rfl | h
  · decide
  · have hall : ∀ n < 256, isDigit (UInt8.ofNat n) = true →
        isWs (UInt8.ofNat n) = false ∧ UInt8.ofNat n ≠ quotationMark ∧
          UInt8.ofNat n ≠ beginArray ∧ UInt8.ofNat n ≠ endArray ∧ UInt8.ofNat n ≠ beginObject ∧
          UInt8.ofNat n ≠ endObject ∧ UInt8.ofNat n ≠ 0x6E ∧ UInt8.ofNat n ≠ 0x74 ∧
          UInt8.ofNat n ≠ 0x66 := by
      decide +kernel
    have hb := hall b.toNat b.toNat_lt
    rw [UInt8.ofNat_toNat] at hb
    exact hb h

theorem numeral_ascii {t : List UInt8} (h : Numeral t) : ∀ b ∈ t, b < 0x80 := by
  have hdigits : ∀ {ds : List UInt8}, Digits ds → ∀ b ∈ ds, b < 0x80 := by
    intro ds hds b hb
    have hdigit := hds.2 b hb
    unfold isDigit at hdigit
    rw [Bool.and_eq_true, decide_eq_true_iff, decide_eq_true_iff] at hdigit
    exact UInt8.lt_of_le_of_lt hdigit.2 (by decide)
  obtain ⟨sign, int, frac, exp, rfl, hsign, hint, hfrac, hexp⟩ := h.parts
  intro b hb
  rcases List.mem_append.mp hb with hb | hb
  · rcases hsign with rfl | rfl
    · exact absurd hb List.not_mem_nil
    · rw [List.mem_singleton.mp hb]
      decide
  · rcases List.mem_append.mp hb with hb | hb
    · rcases hint with rfl | hint
      · rw [List.mem_singleton.mp hb]
        decide
      · exact hdigits hint.1 b hb
    · rcases List.mem_append.mp hb with hb | hb
      · rcases hfrac with rfl | ⟨ds, hds, rfl⟩
        · exact absurd hb List.not_mem_nil
        · rcases List.mem_cons.mp hb with rfl | hb
          · decide
          · exact hdigits hds b hb
      · rcases hexp with rfl | ⟨sign, ds, hsign, hds, rfl⟩
        · exact absurd hb List.not_mem_nil
        · rcases List.mem_cons.mp hb with rfl | hb
          · decide
          · rcases List.mem_cons.mp hb with rfl | hb
            · rcases hsign with rfl | rfl <;> decide
            · exact hdigits hds b hb

theorem reads_numeral {t : List UInt8} (h : Numeral t) : Reads t (some (.number t)) := by
  obtain ⟨b, c, ht, hb⟩ := numeral_head h
  obtain ⟨hws, hquote, harray, hend, hobject, -, hn, ht', hf⟩ := numeral_start hb
  refine ⟨⟨b, c, ht, hws, hend⟩, ?_⟩
  intro n rest hlength hrest
  have hnumber := number_append h hrest
  subst ht
  cases n with
  | zero => exact absurd hlength (Nat.not_succ_le_zero _)
  | succ n =>
      rw [List.cons_append] at hnumber ⊢
      rw [read, skipWs_cons hws]
      simp only [if_neg hquote, if_neg harray, if_neg hobject, if_neg hn, if_neg ht', if_neg hf]
      exact hnumber

/-- No name of a member is a number. -/
theorem readsName_numeral {t : List UInt8} (h : Numeral t) : ReadsName t none := by
  obtain ⟨b, c, rfl, hb⟩ := numeral_head h
  obtain ⟨hws, hquote, -, -, -, hend, -⟩ := numeral_start hb
  refine ⟨⟨b, c, rfl, hws, hend⟩, ?_⟩
  intro rest
  rw [name, List.cons_append, skipWs_cons hws]
  exact if_neg hquote

/-- A string literal, as a value and as a name, from what its body is read to. -/
theorem reads_literal {body : List UInt8} {r : Option (List UInt8)}
    (h : ∀ rest, stringBody (body ++ rest) = r.map fun s => (s, rest)) :
    Reads (quotationMark :: body) (r.map .string) ∧ ReadsName (quotationMark :: body) r := by
  refine ⟨⟨⟨quotationMark, body, rfl, by decide, by decide⟩, ?_⟩,
    ⟨⟨quotationMark, body, rfl, by decide, by decide⟩, ?_⟩⟩
  · intro n rest hlength _
    cases n with
    | zero => exact absurd hlength (Nat.not_succ_le_zero _)
    | succ n =>
        rw [List.cons_append, read_quotationMark, h rest]
        cases r <;> rfl
  · intro rest
    rw [name, List.cons_append, skipWs_cons (by decide)]
    exact (if_pos rfl).trans (h rest)

/-- A text that is read whatever comes after it. -/
theorem reads_of_start {t c : List UInt8} {b : UInt8} {r : Option Value} (ht : t = b :: c)
    (hws : isWs b = false) (hend : b ≠ endArray)
    (h : ∀ n rest, read (n + 1) (t ++ rest) = r.map fun v => (v, rest)) : Reads t r where
  start := ⟨b, c, ht, hws, hend⟩
  reads := by
    intro n rest hlength _
    cases n with
    | zero =>
        rw [ht] at hlength
        exact absurd hlength (Nat.not_succ_le_zero _)
    | succ n => exact h n rest

theorem reads_null : Reads nullText (some .null) :=
  reads_of_start rfl (by decide) (by decide) fun _ _ => rfl

theorem reads_true : Reads trueText (some (.boolean true)) :=
  reads_of_start rfl (by decide) (by decide) fun _ _ => rfl

theorem reads_false : Reads falseText (some (.boolean false)) :=
  reads_of_start rfl (by decide) (by decide) fun _ _ => rfl

theorem reads_emptyObject : Reads [beginObject, endObject] (some (.object [])) :=
  reads_of_start rfl (by decide) (by decide) fun _ _ => rfl

end Json
