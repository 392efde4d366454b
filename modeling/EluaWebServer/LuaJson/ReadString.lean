import EluaWebServer.LuaJson.Scan
import EluaWebServer.LuaJson.Quote

/-!
# The strings of `JSON_parse`

`readString` goes through a string twice: it counts how much shorter the string is without its
escapes, and fills a buffer of the length that is left.  The first pass looks back for a reverse
solidus, the second looks ahead for one with `strchr`, which stops at a zero.  So the two agree
only on strings whose zeros, raw or escaped, are in balance.  `malloc` is taken to find memory.
-/

namespace JsonParse

open Json CString Buffer LuaJson

/-! ## The code -/

def digit2int (digit : UInt8) : Except Stop UInt32 :=
  if 0x30 ≤ digit ∧ digit ≤ 0x39 then .ok (digit.toUInt32 - 0x30)
  -- one of the two comparisons always holds
  else if 0x61 ≤ digit ∨ digit ≤ 0x66 then .ok (digit.toUInt32 - 0x61 + 10)
  else if 0x41 ≤ digit ∨ digit ≤ 0x46 then .ok (digit.toUInt32 - 0x41 + 10)
  else JSONError (bytes "Invalid hex digit")

def fourhex2int : Ptr → Except Stop UInt32
  | d0 :: d1 :: d2 :: d3 :: _ =>
      (digit2int d0).bind fun v0 =>
        (digit2int d1).bind fun v1 =>
          (digit2int d2).bind fun v2 =>
            (digit2int d3).map fun v3 => v0 * 4096 + v1 * 256 + v2 * 16 + v3
  | _ => .error .fault

/-- The four bytes of `utfbuf`. -/
def code2utf8 (code : Ptr) : Except Stop (List UInt8) :=
  (fourhex2int code).map fun (utf : UInt32) =>
    if utf < 128 then [(utf &&& 0x7F).toUInt8, 0, 0, 0]
    else if utf < 2048 then
      [((utf >>> 6 &&& 0x1F) ||| 0xC0).toUInt8, ((utf &&& 0x3F) ||| 0x80).toUInt8, 0, 0]
    else
      [((utf >>> 12 &&& 0x0F) ||| 0xE0).toUInt8, ((utf >>> 6 &&& 0x3F) ||| 0x80).toUInt8,
        ((utf &&& 0x3F) ||| 0x80).toUInt8, 0]

/-- How much shorter an escape of four digits gets. -/
def shorter (utf : UInt32) : Nat := if utf < 128 then 5 else if utf < 2048 then 4 else 3

/-- The first pass: `end` and `minus`.  The byte before `*c` is given with it. -/
def findEnd (before : UInt8) (minus : Nat) : Ptr → Except Stop (Ptr × Nat)
  | [] => .error .fault
  | b :: c =>
      if b = quotationMark then
        if before ≠ reverseSolidus then .ok (b :: c, minus) else findEnd b minus c
      else if b = reverseSolidus then
        match c with
        | [] => .error .fault
        | e :: c =>
            if (simpleEscape e).isSome then
              (orFault (intAdd minus 1)).bind fun minus => findEnd e minus c
            else if e = 0x75 then
              match c with
              | d0 :: d1 :: d2 :: d3 :: c =>
                  (fourhex2int [d0, d1, d2, d3]).bind fun utf =>
                    (orFault (intAdd minus (shorter utf))).bind fun minus => findEnd d3 minus c
              | _ => .error .fault
            else JSONError (bytes "invalid escape character")
      else findEnd b minus c

/-- What `strncpy` stores. -/
def strncpy (c : Ptr) (len : Nat) : List UInt8 :=
  (text c).take len ++ List.replicate (len - (text c).length) 0

/-- The second pass, which fills `newstr` up to `newc`.  A length below zero is a very large one
for `strncpy`. -/
def copyText (ending : Ptr) : Nat → Ptr → List UInt8 → Nat → Except Stop (List UInt8 × Nat)
  | 0, _, _, _ => .error .running
  | n + 1, c, newstr, newc =>
      if c.length = ending.length then .ok (newstr, newc)
      else
        (orFault (strchr reverseSolidus c)).bind fun nextEscape =>
          match nextEscape.filter fun d => ending.length ≤ c.length - d with
          | some 0 =>
              (deref c.tail).bind fun e =>
                match simpleEscape e with
                | some x =>
                    (orFault (storeAll newstr newc [x])).bind fun newstr =>
                      copyText ending n (c.drop 2) newstr (newc + 1)
                | none =>
                    if e = 0x75 then
                      (code2utf8 (c.drop 2)).bind fun utfbuf =>
                        (orFault (storeAll newstr newc (text utfbuf ++ [0]))).bind fun newstr =>
                          copyText ending n (c.drop 6) newstr (newc + (text utfbuf).length)
                    else JSONError (bytes "invalid escape character")
          | some len =>
              (orFault (storeAll newstr newc (strncpy c len))).bind fun newstr =>
                copyText ending n (c.drop len) newstr (newc + len)
          | none =>
              if c.length < ending.length then .error .fault
              else
                (orFault (storeAll newstr newc (strncpy c (c.length - ending.length)))).bind
                  fun newstr => copyText ending n ending newstr (newc + (c.length - ending.length))

/-- Each round of the second pass takes a byte at least, so that it has as many as there are
bytes left. -/
def readString (c : Ptr) : Result (List UInt8) :=
  (deref c).bind fun b =>
    if b ≠ quotationMark then JSONError (bytes "no string :c")
    else
      (findEnd b 0 c.tail).bind fun (ending, minus) =>
        let len := c.tail.length - ending.length - minus
        (copyText ending c.length c.tail (List.replicate (len + 1) 0) 0).bind
          fun (newstr, newc) =>
            (orFault (storeAll newstr newc [0])).bind fun newstr =>
              if newc = len then .ok (text newstr, ending.tail) else .error .uneven

/-! ## The pieces of a string -/

inductive Piece where
  | plain (b : UInt8)
  | simple (e : UInt8)
  | unicode (d0 d1 d2 d3 : UInt8)
  deriving DecidableEq

/-- What comes after the pieces: the text behind the closing quotation mark, an escape that is
none, or the end of the text. -/
inductive Close where
  | closed (rest : Ptr)
  | invalid
  | missing

/-- The pieces of a string.  A quotation mark behind a reverse solidus does not close it, even
where that is the end of an escape. -/
def pieces (before : UInt8) : Ptr → List Piece × Close
  | [] => ([], .missing)
  | b :: c =>
      if b = quotationMark ∧ before ≠ reverseSolidus then ([], .closed c)
      else if b = reverseSolidus then
        match c with
        | [] => ([], .missing)
        | e :: c =>
            if (simpleEscape e).isSome then (pieces e c).map (.simple e :: ·) id
            else if e = 0x75 then
              match c with
              | d0 :: d1 :: d2 :: d3 :: c => (pieces d3 c).map (.unicode d0 d1 d2 d3 :: ·) id
              | _ => ([], .missing)
            else ([], .invalid)
      else (pieces b c).map (.plain b :: ·) id

/-- What a digit counts for, a decimal one or not. -/
def digitValue (d : UInt8) : UInt32 :=
  if isDigit d then d.toUInt32 - 0x30 else d.toUInt32 - 0x61 + 10

def codeUnit (d0 d1 d2 d3 : UInt8) : UInt32 :=
  digitValue d0 * 4096 + digitValue d1 * 256 + digitValue d2 * 16 + digitValue d3

/-- How much shorter a piece gets without its escape. -/
def Piece.saving : Piece → Nat
  | .plain _ => 0
  | .simple _ => 1
  | .unicode d0 d1 d2 d3 => shorter (codeUnit d0 d1 d2 d3)

def Piece.isZeroEscape : Piece → Bool
  | .unicode d0 d1 d2 d3 => codeUnit d0 d1 d2 d3 = 0
  | _ => false

def savings (ps : List Piece) : Nat := (ps.map Piece.saving).sum

/-- The pieces in front of the first raw zero, and those from there on. -/
def beforeZero (ps : List Piece) : List Piece := ps.takeWhile (· ≠ .plain 0)

def fromZero (ps : List Piece) : List Piece := ps.dropWhile (· ≠ .plain 0)

/-- A string is in balance when there are as many escapes of zero, up to its first raw zero, as
bytes are saved after it. -/
def Balanced (ps : List Piece) : Prop :=
  (beforeZero ps).countP Piece.isZeroEscape = savings (fromZero ps)

/-- What is behind the opening quotation mark is closed, and in balance, or has an escape that is
none. -/
def StringFits (t : Ptr) : Prop :=
  match pieces quotationMark t with
  | (ps, .closed _) => savings ps ≤ INT_MAX ∧ Balanced ps
  | (ps, .invalid) => savings ps ≤ INT_MAX
  | (_, .missing) => False

/-- What follows a string. -/
inductive ReadsString : Ptr → Ptr → Prop where
  | mk {t rest : Ptr} {ps : List Piece} (hpieces : pieces quotationMark t = (ps, .closed rest))
      (hsavings : savings ps ≤ INT_MAX) (hbalanced : Balanced ps) :
      ReadsString (quotationMark :: t) rest

variable {c t rest ending : Ptr} {before b e d0 d1 d2 d3 : UInt8} {minus total n size newc : Nat}
  {ps : List Piece} {p : Piece} {close : Close} {newstr : List UInt8}

/-! ## Escapes of four digits -/

/-- Every byte is taken for a digit. -/
theorem digit2int_eq (d : UInt8) : digit2int d = .ok (digitValue d) := by
  rw [digit2int, digitValue]
  by_cases hdigit : 0x30 ≤ d ∧ d ≤ 0x39
  · rw [if_pos hdigit, if_pos (by simp [isDigit, hdigit])]
  · have hletter : 0x61 ≤ d ∨ d ≤ 0x66 := by
      rw [UInt8.le_iff_toNat_le, UInt8.le_iff_toNat_le]
      change 97 ≤ _ ∨ _ ≤ 102
      omega
    rw [if_neg hdigit, if_pos hletter, if_neg (by simpa [isDigit] using hdigit)]

theorem fourhex2int_eq (d0 d1 d2 d3 : UInt8) (c : Ptr) :
    fourhex2int (d0 :: d1 :: d2 :: d3 :: c) = .ok (codeUnit d0 d1 d2 d3) := by
  rw [fourhex2int, digit2int_eq, digit2int_eq, digit2int_eq, digit2int_eq]
  rfl

theorem or_toUInt8_ne_zero (x : UInt32) {y : UInt32} (hy : y.toUInt8 ≠ 0) :
    (x ||| y).toUInt8 ≠ 0 := by
  rw [UInt32.toUInt8_or]
  intro h
  exact hy (UInt8.or_eq_zero_iff.mp h).2

theorem shorter_le (utf : UInt32) : 3 ≤ shorter utf ∧ shorter utf ≤ 5 := by
  unfold shorter
  split_ifs <;> decide

theorem and_toUInt8_eq_zero {utf : UInt32} (h : utf < 128) :
    (utf &&& 0x7F).toUInt8 = 0 ↔ utf = 0 := by
  have hlt : utf.toNat < 128 := UInt32.lt_iff_toNat_lt.mp h
  have hand : utf.toNat &&& 127 = utf.toNat := by
    rw [Nat.and_two_pow_sub_one_eq_mod utf.toNat 7]
    exact Nat.mod_eq_of_lt hlt
  have hbyte : (utf &&& 0x7F).toUInt8.toNat = utf.toNat := by
    rw [UInt32.toNat_toUInt8, UInt32.toNat_and]
    change (utf.toNat &&& 127) % 256 = _
    omega
  rw [← UInt8.toNat_inj, ← UInt32.toNat_inj, hbyte]
  rfl

/-- What an escape is copied to, with its terminator. -/
theorem code2utf8_eq (d0 d1 d2 d3 : UInt8) (c : Ptr) :
    ∃ utfbuf, code2utf8 (d0 :: d1 :: d2 :: d3 :: c) = .ok utfbuf ∧
      (text utfbuf).length = if codeUnit d0 d1 d2 d3 = 0 then 0
        else 6 - shorter (codeUnit d0 d1 d2 d3) := by
  rw [code2utf8, fourhex2int_eq]
  refine ⟨_, rfl, ?_⟩
  generalize codeUnit d0 d1 d2 d3 = utf
  have hlead2 := or_toUInt8_ne_zero (utf >>> 6 &&& 0x1F) (y := 0xC0) (by decide)
  have hlead3 := or_toUInt8_ne_zero (utf >>> 12 &&& 0x0F) (y := 0xE0) (by decide)
  have hmiddle := or_toUInt8_ne_zero (utf >>> 6 &&& 0x3F) (y := 0x80) (by decide)
  have hlast := or_toUInt8_ne_zero (utf &&& 0x3F) (y := 0x80) (by decide)
  by_cases hsmall : utf < 128
  · simp only [if_pos hsmall, shorter]
    by_cases hzero : utf = 0
    · rw [if_pos hzero, (and_toUInt8_eq_zero hsmall).mpr hzero]
      rfl
    · have hne := mt (and_toUInt8_eq_zero hsmall).mp hzero
      rw [if_neg hzero, text_cons hne]
      rfl
  · have hzero : utf ≠ 0 := by
      rintro rfl
      exact hsmall (by decide)
    simp only [if_neg hsmall, if_neg hzero, shorter]
    split
    · rw [text_cons hlead2, text_cons hlast]
      rfl
    · rw [text_cons hlead3, text_cons hmiddle, text_cons hlast]
      rfl

/-! ## The first pass -/

theorem intAdd_of_le {k : Nat} (h : minus + k ≤ INT_MAX) : intAdd minus k = some (minus + k) :=
  intAdd_eq_some.mpr ⟨rfl, h⟩

theorem intAdd_of_lt {k : Nat} (h : INT_MAX < minus + k) : intAdd minus k = none :=
  if_neg (Nat.not_le.mpr h)

/-- How the first pass ends. -/
def endOf (minus : Nat) : List Piece × Close → Except Stop (Ptr × Nat)
  | (ps, .closed rest) =>
      (orFault (intAdd minus (savings ps))).map fun minus => (quotationMark :: rest, minus)
  | (ps, .invalid) =>
      (orFault (intAdd minus (savings ps))).bind fun _ =>
        JSONError (bytes "invalid escape character")
  | (_, .missing) => .error .fault

theorem endOf_cons (p : Piece) (t : List Piece × Close) (minus : Nat) :
    endOf minus (t.map (p :: ·) id) =
      (orFault (intAdd minus p.saving)).bind fun minus => endOf minus t := by
  obtain ⟨ps, close⟩ := t
  have hsum : savings (p :: ps) = p.saving + savings ps := List.sum_cons
  have hadd : (intAdd minus p.saving).bind (intAdd · (savings ps)) =
      intAdd minus (savings (p :: ps)) := by
    by_cases hfits : minus + p.saving ≤ INT_MAX
    · rw [intAdd_of_le hfits, Option.bind_some, intAdd, intAdd, hsum, Nat.add_assoc]
    · rw [intAdd_of_lt (by omega), Option.bind_none, intAdd_of_lt (by rw [hsum]; omega)]
  cases close with
  | closed rest =>
      show (orFault (intAdd minus (savings (p :: ps)))).map _ = _
      rw [← hadd]
      cases intAdd minus p.saving <;> rfl
  | invalid =>
      show (orFault (intAdd minus (savings (p :: ps)))).bind _ = _
      rw [← hadd]
      cases intAdd minus p.saving <;> rfl
  | missing => cases intAdd minus p.saving <;> rfl

/-- The rest of the first pass, after an addition to `minus`. -/
theorem bind_intAdd_congr {α : Type} {k : Nat} {f g : Nat → Except Stop α}
    (h : ∀ minus ≤ INT_MAX, f minus = g minus) :
    (orFault (intAdd minus k)).bind f = (orFault (intAdd minus k)).bind g := by
  rw [intAdd]
  split
  · rename_i hle
    exact h _ hle
  · rfl

/-- **The first pass** counts what the pieces save. -/
theorem findEnd_eq (hminus : minus ≤ INT_MAX) (before : UInt8) (c : Ptr) :
    findEnd before minus c = endOf minus (pieces before c) := by
  have hescape : reverseSolidus ≠ quotationMark := by decide
  have hunicode : ¬(simpleEscape 0x75).isSome = true := by decide
  fun_induction pieces before c generalizing minus with
  | case1 => rfl
  | case2 before b c hclose =>
      have hzero : intAdd minus (savings []) = some minus := intAdd_of_le hminus
      obtain ⟨rfl, hbefore⟩ := hclose
      rw [findEnd.eq_def]
      show (if before ≠ reverseSolidus then _ else _) = (orFault (intAdd minus (savings []))).map _
      rw [if_pos hbefore, hzero]
      rfl
  | case3 =>
      rw [findEnd.eq_def]
      rfl
  | case4 before e c hsimple _ ih =>
      rw [findEnd.eq_def, endOf_cons]
      dsimp only
      rw [if_neg hescape, if_pos rfl, if_pos hsimple]
      exact bind_intAdd_congr fun minus hminus => ih hminus
  | case5 before d0 d1 d2 d3 c _ _ ih =>
      rw [findEnd.eq_def, endOf_cons]
      dsimp only
      rw [if_neg hescape, if_pos rfl, if_neg hunicode, if_pos rfl, fourhex2int_eq]
      exact bind_intAdd_congr fun minus hminus => ih hminus
  | case6 before c hshort _ _ =>
      rw [findEnd.eq_def]
      dsimp only
      rw [if_neg hescape, if_pos rfl, if_neg hunicode, if_pos rfl]
      split
      · exact absurd rfl (hshort _ _ _ _ _)
      · rfl
  | case7 before e c hsimple hletter _ =>
      have hzero : intAdd minus (savings []) = some minus := intAdd_of_le hminus
      rw [findEnd.eq_def]
      dsimp only
      rw [if_neg hescape, if_pos rfl, if_neg hsimple, if_neg hletter]
      show _ = (orFault (intAdd minus (savings []))).bind _
      rw [hzero]
      rfl
  | case8 before b c hopen hplain ih =>
      have hzero : intAdd minus (Piece.plain b).saving = some minus := intAdd_of_le hminus
      rw [findEnd.eq_def, endOf_cons, hzero]
      dsimp only
      rw [if_neg hplain]
      show _ = endOf minus (pieces b c)
      rw [← ih hminus]
      split
      · rename_i hquote
        exact if_neg fun hbefore => hopen ⟨hquote, hbefore⟩
      · rfl

/-! ## What the pieces are of -/

def Piece.source : Piece → List UInt8
  | .plain b => [b]
  | .simple e => [reverseSolidus, e]
  | .unicode d0 d1 d2 d3 => [reverseSolidus, 0x75, d0, d1, d2, d3]

def Piece.Valid : Piece → Prop
  | .plain b => b ≠ reverseSolidus
  | .simple e => (simpleEscape e).isSome
  | .unicode _ _ _ _ => True

theorem closed_of_map {t : List Piece × Close} (h : t.map (p :: ·) id = (ps, .closed rest)) :
    ∃ qs, t = (qs, .closed rest) ∧ ps = p :: qs := by
  obtain ⟨qs, close⟩ := t
  cases h
  exact ⟨qs, rfl, rfl⟩

/-- A string that is closed is its pieces and the quotation mark. -/
theorem pieces_closed (h : pieces before c = (ps, .closed rest)) :
    c = ps.flatMap Piece.source ++ quotationMark :: rest ∧ ∀ p ∈ ps, p.Valid := by
  fun_induction pieces before c generalizing ps with
  | case2 before b c hclose =>
      cases h
      exact ⟨congrArg (· :: rest) hclose.1, nofun⟩
  | case4 before e c hsimple _ ih =>
      obtain ⟨qs, hqs, rfl⟩ := closed_of_map h
      obtain ⟨hsource, hvalid⟩ := ih hqs
      exact ⟨congrArg ([reverseSolidus, e] ++ ·) hsource,
        List.forall_mem_cons.mpr ⟨hsimple, hvalid⟩⟩
  | case5 before d0 d1 d2 d3 c _ _ ih =>
      obtain ⟨qs, hqs, rfl⟩ := closed_of_map h
      obtain ⟨hsource, hvalid⟩ := ih hqs
      exact ⟨congrArg ([reverseSolidus, 0x75, d0, d1, d2, d3] ++ ·) hsource,
        List.forall_mem_cons.mpr ⟨trivial, hvalid⟩⟩
  | case8 before b c hopen hplain ih =>
      obtain ⟨qs, hqs, rfl⟩ := closed_of_map h
      obtain ⟨hsource, hvalid⟩ := ih hqs
      exact ⟨congrArg (b :: ·) hsource, List.forall_mem_cons.mpr ⟨hplain, hvalid⟩⟩
  | _ => cases h

/-! ## What the second pass writes -/

/-- How many bytes a piece is copied to, before the first raw zero. -/
def Piece.copied : Piece → Nat
  | .plain _ => 1
  | .simple _ => 1
  | .unicode d0 d1 d2 d3 =>
      if codeUnit d0 d1 d2 d3 = 0 then 0 else 6 - shorter (codeUnit d0 d1 d2 d3)

/-- From the first raw zero on everything is copied as it stands. -/
def written : List Piece → Nat
  | [] => 0
  | p :: ps => if p = .plain 0 then 1 + (ps.flatMap Piece.source).length else p.copied + written ps

theorem Piece.copied_add_saving (p : Piece) :
    p.copied + p.saving + (if p.isZeroEscape then 1 else 0) = p.source.length := by
  cases p with
  | plain b => rfl
  | simple e => rfl
  | unicode d0 d1 d2 d3 =>
      have hshorter := shorter_le (codeUnit d0 d1 d2 d3)
      show (if codeUnit d0 d1 d2 d3 = 0 then 0 else 6 - shorter (codeUnit d0 d1 d2 d3)) +
        shorter (codeUnit d0 d1 d2 d3) + (if decide (codeUnit d0 d1 d2 d3 = 0) then 1 else 0) = 6
      by_cases hzero : codeUnit d0 d1 d2 d3 = 0
      · rw [if_pos hzero, decide_eq_true hzero, hzero]
        rfl
      · rw [if_neg hzero, decide_eq_false hzero, if_neg Bool.false_ne_true]
        omega

theorem savings_cons (p : Piece) (ps : List Piece) : savings (p :: ps) = p.saving + savings ps :=
  List.sum_cons

/-- **What is written** and what is saved are the whole string, but for the zeros. -/
theorem written_add_savings (ps : List Piece) :
    written ps + savings ps + (beforeZero ps).countP Piece.isZeroEscape =
      (ps.flatMap Piece.source).length + savings (fromZero ps) := by
  induction ps with
  | nil => rfl
  | cons p ps ih =>
      rw [written, savings_cons, List.flatMap_cons, List.length_append, beforeZero, fromZero]
      by_cases hzero : p = .plain 0
      · subst hzero
        rw [if_pos rfl, List.takeWhile_cons_of_neg (by simp), List.dropWhile_cons_of_neg (by simp),
          savings_cons, List.countP_nil]
        show _ = 1 + _ + _
        omega
      · have hpiece := p.copied_add_saving
        rw [if_neg hzero, List.takeWhile_cons_of_pos (by simpa using hzero),
          List.dropWhile_cons_of_pos (by simpa using hzero), List.countP_cons]
        rw [beforeZero, fromZero] at ih
        omega

theorem written_plain {bs : List UInt8} (h : 0 ∉ bs) (ps : List Piece) :
    written (bs.map .plain ++ ps) = bs.length + written ps := by
  induction bs with
  | nil => exact (Nat.zero_add _).symm
  | cons b bs ih =>
      rw [List.mem_cons, not_or] at h
      have hb : Piece.plain b ≠ .plain 0 := fun heq => h.1 (Piece.plain.inj heq).symm
      rw [List.map_cons, List.cons_append, written, if_neg hb, ih h.2, List.length_cons]
      show 1 + _ = _
      omega

theorem source_plain (bs : List UInt8) : (bs.map Piece.plain).flatMap Piece.source = bs := by
  induction bs with
  | nil => rfl
  | cons b bs ih => exact congrArg (b :: ·) ih

theorem source_pos (p : Piece) : 0 < p.source.length := by
  cases p <;> exact Nat.succ_pos _

def Piece.IsEscape : Piece → Prop
  | .plain _ => False
  | _ => True

/-- The plain pieces in front of the first escape, or of the first raw zero. -/
theorem exists_run (ps : List Piece) :
    ∃ (bs : List UInt8) (qs : List Piece), ps = bs.map .plain ++ qs ∧ 0 ∉ bs ∧
      (qs = [] ∨ (∃ rs, qs = .plain 0 :: rs) ∨ ∃ p rs, qs = p :: rs ∧ p.IsEscape) := by
  induction ps with
  | nil => exact ⟨[], [], rfl, nofun, .inl rfl⟩
  | cons p ps ih =>
      by_cases hescape : p.IsEscape
      · exact ⟨[], p :: ps, rfl, nofun, .inr (.inr ⟨p, ps, rfl, hescape⟩)⟩
      · cases p with
        | plain b =>
            by_cases hb : b = 0
            · exact ⟨[], .plain b :: ps, rfl, nofun, .inr (.inl ⟨ps, by rw [hb]⟩)⟩
            · obtain ⟨bs, qs, rfl, hbs, hqs⟩ := ih
              refine ⟨b :: bs, qs, rfl, ?_, hqs⟩
              rw [List.mem_cons, not_or]
              exact ⟨Ne.symm hb, hbs⟩
        | simple e => exact absurd trivial hescape
        | unicode d0 d1 d2 d3 => exact absurd trivial hescape

/-! ## The second pass -/

/-- How the second pass ends, in a buffer of some size. -/
def Copied (size total : Nat) (x : Except Stop (List UInt8 × Nat)) : Prop :=
  (∃ newstr, x = .ok (newstr, total) ∧ newstr.length = size) ∨ x = .error .fault ∧ size ≤ total

/-- A store, and what is done after it. -/
theorem copied_store {xs : List UInt8} {f : List UInt8 → Except Stop (List UInt8 × Nat)}
    (hsize : newstr.length = size) (htotal : newc + xs.length ≤ total + 1)
    (h : ∀ newstr, newstr.length = size → Copied size total (f newstr)) :
    Copied size total ((orFault (storeAll newstr newc xs)).bind f) := by
  by_cases hfits : newc + xs.length ≤ newstr.length
  · rw [storeAll_eq_splice hfits]
    exact h _ ((splice_length hfits).trans hsize)
  · cases xs with
    | nil => exact h newstr hsize
    | cons x xs =>
        rw [storeAll_eq_none (Nat.not_le.mp hfits) (List.cons_ne_nil _ _)]
        exact .inr ⟨rfl, by omega⟩

theorem strncpy_length (c : Ptr) (len : Nat) : (strncpy c len).length = len := by
  rw [strncpy, List.length_append, List.length_take, List.length_replicate]
  omega

theorem copyText_end (n : Nat) (ending : Ptr) (newstr : List UInt8) (newc : Nat) :
    copyText ending (n + 1) ending newstr newc = .ok (newstr, newc) := by
  rw [copyText]
  exact if_pos rfl

/-- What is copied where no escape is found before the end. -/
theorem copied_rest {d : Option Nat} (hlt : ending.length < c.length) (hsize : newstr.length = size)
    (hstrchr : strchr reverseSolidus c = some d)
    (hd : (d.filter fun d => ending.length ≤ c.length - d) = none)
    (htotal : newc + (c.length - ending.length) = total) :
    Copied size total (copyText ending (n + 2) c newstr newc) := by
  rw [copyText, if_neg (Nat.ne_of_gt hlt), hstrchr]
  show Copied size total (match d.filter fun d => ending.length ≤ c.length - d with
    | some 0 => _
    | some len => _
    | none => _)
  rw [hd]
  show Copied size total (if c.length < ending.length then _ else _)
  rw [if_neg (Nat.not_lt.mpr (Nat.le_of_lt hlt))]
  refine copied_store hsize ?_ fun newstr hsize => ?_
  · rw [strncpy_length]
    omega
  · rw [copyText_end, htotal]
    exact .inl ⟨newstr, rfl, hsize⟩

theorem filter_some_of_le {d : Nat} (h : ending.length ≤ c.length - d) :
    ((some d).filter fun d => ending.length ≤ c.length - d) = some d := by
  rw [Option.filter_some, if_pos (decide_eq_true h)]

/-- What is copied up to the next escape. -/
theorem copied_plain {len : Nat} (hne : c.length ≠ ending.length) (hsize : newstr.length = size)
    (hstrchr : strchr reverseSolidus c = some (some (len + 1)))
    (hle : ending.length ≤ c.length - (len + 1)) (htotal : newc + (len + 1) ≤ total)
    (h : ∀ newstr, newstr.length = size →
      Copied size total (copyText ending n (c.drop (len + 1)) newstr (newc + (len + 1)))) :
    Copied size total (copyText ending (n + 1) c newstr newc) := by
  have hkeep := filter_some_of_le hle
  rw [copyText, if_neg hne, hstrchr]
  show Copied size total (match Option.filter (fun d => ending.length ≤ c.length - d) _ with
    | some 0 => _
    | some len => _
    | none => _)
  rw [hkeep]
  refine copied_store hsize ?_ h
  rw [strncpy_length]
  omega

theorem strchr_escape (hescape : p.IsEscape) (t : Ptr) :
    strchr reverseSolidus (p.source ++ t) = some (some 0) := by
  cases p with
  | plain b => exact absurd hescape id
  | simple e => rfl
  | unicode d0 d1 d2 d3 => rfl

/-- The closing quotation mark is no reverse solidus. -/
theorem strchr_quote (hends : Ends rest) :
    ∃ d : Option Nat, strchr reverseSolidus (quotationMark :: rest) = some (d.map (· + 1)) := by
  obtain ⟨d, hd⟩ := Option.isSome_iff_exists.mp (strchr_isSome reverseSolidus hends.zero_mem)
  refine ⟨d, ?_⟩
  rw [strchr, if_neg (by decide), if_neg (by decide), hd]
  rfl

/-- What is copied for an escape. -/
theorem copied_escape (hvalid : p.Valid) (hescape : p.IsEscape)
    (hle : ending.length ≤ t.length) (hsize : newstr.length = size)
    (htotal : newc + p.copied ≤ total)
    (h : ∀ newstr, newstr.length = size →
      Copied size total (copyText ending n t newstr (newc + p.copied))) :
    Copied size total (copyText ending (n + 1) (p.source ++ t) newstr newc) := by
  have hpos := source_pos p
  have hlength : (p.source ++ t).length = p.source.length + t.length := List.length_append
  have hroom : ending.length ≤ (p.source ++ t).length - 0 := by omega
  have hkeep := filter_some_of_le hroom
  rw [copyText, if_neg (by omega), strchr_escape hescape]
  show Copied size total (match
    Option.filter (fun d => ending.length ≤ (p.source ++ t).length - d) (some 0) with
    | some 0 => _
    | some len => _
    | none => _)
  rw [hkeep]
  cases p with
  | plain b => exact absurd hescape id
  | simple e =>
      obtain ⟨x, hx⟩ := Option.isSome_iff_exists.mp hvalid
      show Copied size total (match simpleEscape e with
        | some x => _
        | none => _)
      rw [hx]
      exact copied_store hsize (Nat.le_succ_of_le htotal) h
  | unicode d0 d1 d2 d3 =>
      obtain ⟨utfbuf, hbuf, hlength⟩ := code2utf8_eq d0 d1 d2 d3 t
      have hcopied : (text utfbuf).length = (Piece.unicode d0 d1 d2 d3).copied := hlength
      show Copied size total ((code2utf8 (d0 :: d1 :: d2 :: d3 :: t)).bind _)
      rw [hbuf]
      refine copied_store hsize ?_ fun newstr hsize => ?_
      · rw [List.length_append, List.length_singleton, hcopied]
        omega
      · show Copied size total (copyText ending n t newstr (newc + (text utfbuf).length))
        rw [hcopied]
        exact h newstr hsize

/-- **The second pass** writes what the pieces are copied to, or goes out of the buffer. -/
theorem copied_pieces (hends : Ends rest) (hvalid : ∀ p ∈ ps, p.Valid) (hfuel : ps.length < n)
    (hsize : newstr.length = size) :
    Copied size (newc + written ps)
      (copyText (quotationMark :: rest) n (ps.flatMap Piece.source ++ quotationMark :: rest)
        newstr newc) := by
  induction n generalizing ps newstr newc with
  | zero => exact absurd hfuel (Nat.not_lt_zero _)
  | succ n ih =>
      obtain ⟨bs, qs, rfl, hbs, hqs⟩ := exists_run ps
      have hplain : ∀ b ∈ bs, b ≠ reverseSolidus ∧ b ≠ 0 := by
        intro b hb
        refine ⟨hvalid (.plain b) (List.mem_append_left _ (List.mem_map_of_mem hb)), ?_⟩
        rintro rfl
        exact hbs hb
      have hstrchr := strchr_append hplain (qs.flatMap Piece.source ++ quotationMark :: rest)
      have hsource : (bs.map Piece.plain ++ qs).flatMap Piece.source ++ quotationMark :: rest =
          bs ++ (qs.flatMap Piece.source ++ quotationMark :: rest) := by
        rw [List.flatMap_append, source_plain, List.append_assoc]
      rw [List.length_append, List.length_map] at hfuel
      rw [hsource, written_plain hbs]
      rcases hqs with rfl | ⟨rs, rfl⟩ | ⟨p, rs, rfl, hescape⟩
      · -- nothing but plain pieces, and the quotation mark
        rw [List.flatMap_nil, List.nil_append] at hstrchr ⊢
        cases bs with
        | nil =>
            rw [List.nil_append, copyText_end]
            exact .inl ⟨newstr, rfl, hsize⟩
        | cons b bs =>
            obtain ⟨n, rfl⟩ := Nat.exists_eq_succ_of_ne_zero (show n ≠ 0 by
              rw [List.length_cons] at hfuel
              omega)
            obtain ⟨d, hd⟩ := strchr_quote hends
            rw [hd] at hstrchr
            refine copied_rest ?_ hsize hstrchr ?_ ?_
            · simp only [List.length_append, List.length_cons]
              omega
            · cases d with
              | none => rfl
              | some d =>
                  refine (Option.filter_some ..).trans (if_neg ?_)
                  simp only [decide_eq_true_eq, List.length_append, List.length_cons]
                  omega
            · rw [List.length_append, Nat.add_sub_cancel]
              rfl
      · -- a raw zero comes first
        obtain ⟨n, rfl⟩ := Nat.exists_eq_succ_of_ne_zero (show n ≠ 0 by
          rw [List.length_cons] at hfuel
          omega)
        refine copied_rest (d := none) ?_ hsize hstrchr rfl ?_
        · rw [List.length_append, List.length_append, List.flatMap_cons, List.length_append]
          show _ < _ + (1 + _ + _)
          omega
        · rw [written, if_pos rfl, List.length_append, List.length_append, List.flatMap_cons,
            List.length_append]
          show newc + (_ + (1 + _ + _) - _) = _
          omega
      · -- an escape comes first
        rw [List.length_cons] at hfuel
        have hnot : p ≠ .plain 0 := by
          rintro rfl
          exact hescape
        cases bs with
        | nil =>
            have hp := hvalid p List.mem_cons_self
            have hwritten : newc + p.copied + written rs = newc + (0 + written (p :: rs)) := by
              rw [written, if_neg hnot]
              omega
            rw [List.nil_append, List.length_nil, ← hwritten, List.flatMap_cons, List.append_assoc]
            refine copied_escape hp hescape ?_ hsize (Nat.le_add_right _ _) fun newstr hsize => ?_
            · rw [List.length_append]
              omega
            · exact ih (fun q hq => hvalid q (List.mem_cons_of_mem p hq)) (by omega) hsize
        | cons b bs =>
            have hfound := strchr_escape hescape (rs.flatMap Piece.source ++ quotationMark :: rest)
            rw [← List.append_assoc, ← List.flatMap_cons] at hfound
            rw [hfound] at hstrchr
            have hdrop : (b :: bs ++ ((p :: rs).flatMap Piece.source ++ quotationMark :: rest)).drop
                (bs.length + 1) = (p :: rs).flatMap Piece.source ++ quotationMark :: rest :=
              List.drop_left
            rw [Option.map_some, Option.map_some, Nat.zero_add, List.length_cons] at hstrchr
            refine copied_plain ?_ hsize hstrchr ?_ ?_ fun newstr hsize => ?_
            · simp only [List.length_append, List.length_cons]
              omega
            · simp only [List.length_append, List.length_cons]
              omega
            · rw [List.length_cons]
              omega
            · rw [hdrop, List.length_cons, ← Nat.add_assoc]
              rw [List.length_cons] at hfuel
              exact ih (fun q hq => hvalid q (List.mem_append_right _ hq))
                (by rw [List.length_cons]; omega) hsize

/-! ## Reading strings -/

theorem length_le_source (ps : List Piece) : ps.length ≤ (ps.flatMap Piece.source).length := by
  induction ps with
  | nil => exact Nat.le_refl _
  | cons p ps ih =>
      have hpos := source_pos p
      rw [List.length_cons, List.flatMap_cons, List.length_append]
      omega

theorem readString_of_ne (hb : b ≠ quotationMark) (c : Ptr) :
    ∃ m, readString (b :: c) = .error (.raised m) := ⟨_, if_pos hb⟩

theorem savings_le_source (ps : List Piece) : savings ps ≤ (ps.flatMap Piece.source).length := by
  induction ps with
  | nil => exact Nat.le_refl _
  | cons p ps ih =>
      have hpiece := p.copied_add_saving
      rw [savings_cons, List.flatMap_cons, List.length_append]
      omega

/-- The end of `readString`, in the buffer that is filled. -/
def finish (rest : Ptr) (len : Nat) (x : List UInt8 × Nat) : Result (List UInt8) :=
  (orFault (storeAll x.1 x.2 [0])).bind fun newstr =>
    if x.2 = len then .ok (text newstr, rest) else .error .uneven

theorem readString_quote (t : Ptr) :
    readString (quotationMark :: t) = (findEnd quotationMark 0 t).bind fun x =>
      (copyText x.1 (t.length + 1) t (List.replicate (t.length - x.1.length - x.2 + 1) 0) 0).bind
        (finish x.1.tail (t.length - x.1.length - x.2)) := by
  have hquote : ¬quotationMark ≠ quotationMark := not_not_intro rfl
  exact @if_neg _ _ hquote _ (JSONError (bytes "no string :c")) _

theorem finish_of_eq (rest : Ptr) {len : Nat} (hsize : newstr.length = len + 1) :
    ∃ s, finish rest len (newstr, len) = .ok (s, rest) := by
  have hfits : len + [(0 : UInt8)].length ≤ newstr.length := Nat.le_of_eq hsize.symm
  rw [finish, storeAll_eq_splice hfits]
  exact ⟨_, if_pos rfl⟩

theorem finish_of_ne (rest : Ptr) {len : Nat} (h : newc ≠ len) (newstr : List UInt8) :
    finish rest len (newstr, newc) = .error .fault ∨
      finish rest len (newstr, newc) = .error .uneven := by
  rw [finish]
  cases storeAll newstr newc [0] with
  | none => exact .inl rfl
  | some newstr => exact .inr (if_neg h)

/-- What comes after the first pass. -/
theorem readString_closed (hends : Ends t) (h : pieces quotationMark t = (ps, .closed rest))
    (hsavings : savings ps ≤ INT_MAX) :
    ∃ x len, Copied (len + 1) (written ps) x ∧ (written ps = len ↔ Balanced ps) ∧
      readString (quotationMark :: t) = x.bind (finish rest len) := by
  obtain ⟨hsource, hvalid⟩ := pieces_closed h
  have hrest : Ends rest := hends.of_suffix (hsource ▸ List.suffix_append _ _) (by decide)
  have hfind : findEnd quotationMark 0 t = .ok (quotationMark :: rest, savings ps) := by
    rw [findEnd_eq (Nat.zero_le _), h, endOf, intAdd_of_le (by rwa [Nat.zero_add]), Nat.zero_add]
    rfl
  have hlen : t.length - (quotationMark :: rest).length - savings ps =
      (ps.flatMap Piece.source).length - savings ps := by
    rw [hsource, List.length_append, Nat.add_sub_cancel]
  have hfuel : ps.length < (quotationMark :: t).length := by
    have hle := length_le_source ps
    rw [hsource, List.length_cons, List.length_append]
    omega
  have hcopied := @copied_pieces rest _ _ 0 ps
    (List.replicate (t.length - (quotationMark :: rest).length - savings ps + 1) 0)
    hrest hvalid hfuel List.length_replicate
  rw [← hsource, Nat.zero_add] at hcopied
  refine ⟨_, _, hcopied, ?_, ?_⟩
  · have hwritten := written_add_savings ps
    have hle := savings_le_source ps
    rw [Balanced, hlen]
    omega
  · rw [readString_quote, hfind]
    rfl

/-- **A string** is read where it is closed and in balance. -/
theorem readString_of_reads (hends : Ends c) (h : ReadsString c rest) :
    ∃ s, readString c = .ok (s, rest) := by
  obtain ⟨hpieces, hsavings, hbalanced⟩ := h
  rename_i t ps
  obtain ⟨x, len, hcopied, hiff, hread⟩ :=
    readString_closed (hends.tail (by decide)) hpieces hsavings
  have hlen := hiff.mpr hbalanced
  rcases hcopied with ⟨newstr, hx, hsize⟩ | ⟨-, hle⟩
  · rw [hread, hx, hlen]
    exact finish_of_eq rest hsize
  · omega

theorem readString_of_not_fits (hends : Ends (quotationMark :: t)) (h : ¬ StringFits t) :
    readString (quotationMark :: t) = .error .fault ∨
      readString (quotationMark :: t) = .error .uneven := by
  have hfind := findEnd_eq (Nat.zero_le INT_MAX) quotationMark t
  rw [StringFits] at h
  cases hpieces : pieces quotationMark t with
  | mk ps close =>
      rw [hpieces] at h hfind
      cases close with
      | closed rest =>
          by_cases hsavings : savings ps ≤ INT_MAX
          · obtain ⟨x, len, hcopied, hiff, hread⟩ :=
              readString_closed (hends.tail (by decide)) hpieces hsavings
            have hne : written ps ≠ len := fun heq => h ⟨hsavings, hiff.mp heq⟩
            rcases hcopied with ⟨newstr, hx, -⟩ | ⟨hx, -⟩
            · rw [hread, hx]
              exact finish_of_ne rest hne newstr
            · rw [hread, hx]
              exact .inl rfl
          · rw [readString_quote, hfind, endOf, intAdd_of_lt (by omega)]
            exact .inl rfl
      | invalid =>
          rw [readString_quote, hfind, endOf, intAdd_of_lt (by omega)]
          exact .inl rfl
      | missing =>
          rw [readString_quote, hfind]
          exact .inl rfl

/-- What fits is read, or has an escape that is none. -/
theorem readString_of_fits (h : StringFits t) :
    (∃ rest, ReadsString (quotationMark :: t) rest) ∨
      ∃ m, readString (quotationMark :: t) = .error (.raised m) := by
  rw [StringFits] at h
  cases hpieces : pieces quotationMark t with
  | mk ps close =>
      rw [hpieces] at h
      cases close with
      | closed rest => exact .inl ⟨rest, hpieces, h.1, h.2⟩
      | invalid =>
          have hadd : intAdd 0 (savings ps) = some (0 + savings ps) := intAdd_of_le (by omega)
          rw [readString_quote, findEnd_eq (Nat.zero_le _), hpieces, endOf, hadd]
          exact .inr ⟨_, rfl⟩
      | missing => exact absurd h id

theorem ReadsString.suffix (h : ReadsString c rest) : quotationMark :: rest <:+ c.tail := by
  obtain ⟨hpieces, -, -⟩ := h
  exact ⟨_, (pieces_closed hpieces).1.symm⟩

end JsonParse
