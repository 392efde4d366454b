import EluaWebServer.LuaJson.Value

/-!
# Writing JSON

`JSON_stringify` and what it calls.  Memory and the C stack suffice, and what
the code writes outside of an allocation has no result.  The list of the tables
that are being written stays empty, since `addToList` gets the pointer to it by
value.
-/

namespace LuaJson

open Decimal

/-- What differs between compilers and C libraries: whether `char` is signed, and
`strtod` and `strtoul` in base 16, with how many characters they take. -/
structure Platform where
  charSigned : Bool
  strtod : List UInt8 → Number × Nat
  strtoul16 : List UInt8 → Nat × Nat

def INT_MAX : Nat := 2 ^ 31 - 1

/-- The characters before the terminator. -/
def cstr (s : List UInt8) : List UInt8 := s.takeWhile (· ≠ 0)

def isspace (b : UInt8) : Bool := b = 0x20 || (0x09 ≤ b && b ≤ 0x0D)

section

variable (p : Platform)

/-- `luaO_str2d`. -/
def luaO_str2d (s : List UInt8) : Option Number :=
  let s := cstr s
  let (x, n) := p.strtod s
  if n = 0 then none
  else
    let hex := s[n]? = some 0x78 ∨ s[n]? = some 0x58
    let (x, n) := if hex then (ofInt (p.strtoul16 s).1, (p.strtoul16 s).2) else (x, n)
    if (s.drop n).dropWhile isspace = [] then some x else none

/-- A `char` as an `int`. -/
def charValue (b : UInt8) : Int :=
  if p.charSigned ∧ 128 ≤ b then b.toNat - 256 else b.toNat

def int2digit (val : Int) : UInt8 :=
  UInt8.ofInt (if val ≥ 10 then 0x61 + val - 10 else 0x30 + val)

def int2fourhex (num : Int) : List UInt8 :=
  let d0 := int2digit (num.tdiv 4096)
  let num := num.tmod 4096
  let d1 := int2digit (num.tdiv 256)
  let num := num.tmod 256
  [d0, d1, int2digit (num.tdiv 16), int2digit (num.tmod 16)]

/-- What the first loop of `quote` adds to the count. -/
def escapeExtra (c : UInt8) : Nat :=
  if c = 0x5C ∨ c = 0x22 ∨ c = 0x08 ∨ c = 0x0C ∨ c = 0x0A ∨ c = 0x0D ∨ c = 0x09 then 1
  else if charValue p c < 32 then 5
  else 0

/-- What the second loop of `quote` writes. -/
def escape (c : UInt8) : List UInt8 :=
  if c = 0x5C then [0x5C, 0x5C]
  else if c = 0x22 then [0x5C, 0x22]
  else if c = 0x08 then [0x5C, 0x62]
  else if c = 0x0C then [0x5C, 0x66]
  else if c = 0x0A then [0x5C, 0x6E]
  else if c = 0x0D then [0x5C, 0x72]
  else if c = 0x09 then [0x5C, 0x74]
  else if charValue p c < 32 then [0x5C, 0x75] ++ int2fourhex (charValue p c)
  else [c]

/-- The final string size, excluding the terminator. -/
def quoteCount (s : List UInt8) : Nat := 2 + s.length + (s.map (escapeExtra p)).sum

/-- `quote`, as the string that is returned.  It first writes four characters
to what it has allocated. -/
def quote (s : List UInt8) : Option (List UInt8) :=
  let text := 0x22 :: (s.flatMap (escape p) ++ [0x22])
  if INT_MAX < quoteCount p s + 1 ∨ quoteCount p s + 1 < 4 ∨
    quoteCount p s + 1 < text.length + 1 then none
  else some (cstr text)

/-- A `double` takes at most 21 of the 32 characters of the buffer. -/
def stringifyNumber (value : Number) : List UInt8 := formatG 14 value

/-- `stringify`, of a string: one that is a number is written as a number. -/
def stringifyString (s : List UInt8) : Option (List UInt8) :=
  match luaO_str2d p s with
  | some x => some (stringifyNumber x)
  | none => quote p s

/-- `stringify`, of a key that is a string or a number. -/
def stringifyKey : Key → Option (List UInt8)
  | .string s => stringifyString p s
  | .number x => some (stringifyNumber x)
  | .other _ => none

/-- What the loops of `stringifyTable` write, with a comma before every text but
the first one. -/
def joined : Bool → List (Option (List UInt8)) → Option (List UInt8)
  | _, [] => some []
  | first, text :: texts =>
      text.bind fun text =>
        (joined false texts).map fun rest => (if first then text else 0x2C :: text) ++ rest

/-- The text of an entry of an object. -/
def entryText (e : Key × Option (List UInt8)) : Option (List UInt8) :=
  (stringifyKey p e.1).bind fun key => e.2.map fun value => key ++ 0x3A :: value

/-- `stringifyTable`, from the texts of the values of the entries. -/
def stringifyTable (texts : List (Key × Option (List UInt8))) : Option (List UInt8) :=
  match get texts (index 1) with
  | none =>
      (joined true ((members texts).map (entryText p))).map fun t => 0x7B :: (t ++ [0x7D])
  | some _ => (joined true (items texts)).map fun t => 0x5B :: (t ++ [0x5D])

mutual

/-- `stringify`. -/
def stringify : Value → Option (List UInt8)
  | .boolean b => some (if b then [0x74, 0x72, 0x75, 0x65] else [0x66, 0x61, 0x6C, 0x73, 0x65])
  | .number x => some (stringifyNumber x)
  | .string s => stringifyString p s
  | .sentinel => some [0x6E, 0x75, 0x6C, 0x6C]
  | .table es => stringifyTable p (texts es)
  -- "FUNCTION", "USERDATA", "" and "wtf?"
  | .function => some [0x46, 0x55, 0x4E, 0x43, 0x54, 0x49, 0x4F, 0x4E]
  | .userdata => some [0x55, 0x53, 0x45, 0x52, 0x44, 0x41, 0x54, 0x41]
  | .nil => some []
  | .other => some [0x77, 0x74, 0x66, 0x3F]

/-- The texts of the values of entries. -/
def texts : Entries → List (Key × Option (List UInt8))
  | .nil => []
  | .cons k v rest => (k, stringify v) :: texts rest

end

/-! ## Quoting -/

variable {p}

/-- The bytes of a string, one by one. -/
theorem forall_byte {P : UInt8 → Prop} (h : ∀ n < 256, P (UInt8.ofNat n)) (b : UInt8) : P b := by
  have hb := h b.toNat b.toNat_lt
  rwa [UInt8.ofNat_toNat] at hb

theorem charValue_of_signed {c : UInt8} (hs : p.charSigned = true) (hc : 128 ≤ c) :
    charValue p c = c.toNat - 256 := by
  unfold charValue
  exact if_pos ⟨hs, hc⟩

theorem charValue_of_not {c : UInt8} (h : ¬(p.charSigned = true ∧ 128 ≤ c)) :
    charValue p c = c.toNat := by
  unfold charValue
  exact if_neg h

/-- **Both loops of `quote` count the same.** -/
theorem escape_length (c : UInt8) : (escape p c).length = 1 + escapeExtra p c := by
  unfold escape escapeExtra
  split_ifs <;> first | rfl | simp_all

theorem quote_length (s : List UInt8) :
    (0x22 :: (s.flatMap (escape p) ++ [0x22])).length = quoteCount p s := by
  have hloops : (s.flatMap (escape p)).length = s.length + (s.map (escapeExtra p)).sum := by
    induction s with
    | nil => rfl
    | cons c s ih =>
        rw [List.flatMap_cons, List.length_append, escape_length, ih, List.length_cons,
          List.map_cons, List.sum_cons]
        omega
  rw [List.length_cons, List.length_append, hloops, List.length_singleton, quoteCount]
  omega

end

end LuaJson
