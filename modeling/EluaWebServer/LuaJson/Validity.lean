import EluaWebServer.LuaJson.Stringify

/-!
# What is written is JSON

Which JSON value a Lua value should be written as, and exactly when a reader of
JSON gets it from what `JSON_stringify` returns.
-/

namespace LuaJson

open Decimal Json

variable {p : Platform}

/-! ## Values without undefined leaves -/

/-- The UTF-8 of characters other than NUL. -/
def IsText (s : List UInt8) : Prop := IsUtf8 s ∧ 0 ∉ s

/-- A string or a finite number. -/
def Key.Plain : Key → Prop
  | .string s => IsText s
  | .number x => x.isFinite = true
  | .other _ => False

mutual

/-- Built from booleans, finite numbers, strings, `json.null` and tables whose
keys are strings or numbers. -/
def Value.Plain : Value → Prop
  | .boolean _ => True
  | .number x => x.isFinite = true
  | .string s => IsText s
  | .sentinel => True
  | .table es => es.Plain
  | _ => False

def Entries.Plain : Entries → Prop
  | .nil => True
  | .cons k v rest => k.Plain ∧ v.Plain ∧ rest.Plain

end

/-! ## The JSON value of a Lua value -/

/-- The name that a key has in JSON. -/
def Key.name : Key → List UInt8
  | .string s => s
  | .number x => formatG 14 x
  | .other _ => []

def jsonTable (es : List (Key × Json.Value)) : Json.Value :=
  match get es (index 1) with
  | none => .object ((members es).map fun e => (e.1.name, e.2))
  | some _ => .array (items es)

mutual

/-- Numbers, strings and `json.null` are what they are, a table with a first
element is the array of its elements, and another table an object. -/
def toJson : Value → Json.Value
  | .boolean b => .boolean b
  | .number x => .number (formatG 14 x)
  | .string s => .string s
  | .table es => jsonTable (jsons es)
  | _ => .null

def jsons : Entries → List (Key × Json.Value)
  | .nil => []
  | .cons k v rest => (k, toJson v) :: jsons rest

end

/-! ## What is written correctly -/

variable (p)

/-- A string that is not empty, not a number and not too long for an `int`, of
ASCII characters where `char` is signed. -/
def Quotable (s : List UInt8) : Prop :=
  s ≠ [] ∧ luaO_str2d p s = none ∧ quoteCount p s < INT_MAX ∧
    (p.charSigned = true → ∀ b ∈ s, b < 0x80)

/-- Numbers are no names. -/
def Key.Sound : Key → Prop
  | .string s => Quotable p s
  | _ => False

def SoundTable (es : List (Key × Prop)) : Prop :=
  match get es (index 1) with
  | none => ∀ e ∈ members es, e.1.Sound p ∧ e.2
  | some _ => ∀ P ∈ items es, P

mutual

/-- Every string that is written can be quoted, and no name is a number. -/
def Sound : Value → Prop
  | .nil => False
  | .string s => Quotable p s
  | .table es => SoundTable p (sounds es)
  | _ => True

def sounds : Entries → List (Key × Prop)
  | .nil => []
  | .cons k v rest => (k, Sound v) :: sounds rest

end

variable {p}

theorem texts_eq : ∀ es : Entries, texts p es = onValues (stringify p) es.toList
  | .nil => by rw [texts]; rfl
  | .cons k v rest => by rw [texts, texts_eq rest]; rfl

theorem jsons_eq : ∀ es : Entries, jsons es = onValues toJson es.toList
  | .nil => by rw [jsons]; rfl
  | .cons k v rest => by rw [jsons, jsons_eq rest]; rfl

theorem sounds_eq : ∀ es : Entries, sounds p es = onValues (Sound p) es.toList
  | .nil => by rw [sounds]; rfl
  | .cons k v rest => by rw [sounds, sounds_eq rest]; rfl

/-! ## Strings -/

theorem hex4_control : ∀ c : UInt8, c < 0x20 →
    ∃ h0 h1 h2 h3, int2fourhex c.toNat = [h0, h1, h2, h3] ∧ hex4 h0 h1 h2 h3 = some c.toNat ∧
      isScalar c.toNat = true ∧ utf8 [Char.ofNat c.toNat] = [c] := by
  refine forall_byte ?_
  intro n hn hc
  refine ⟨_, _, _, _, rfl, ?_⟩
  revert n
  decide +kernel

/-- The digits of a negative `char` are no digits. -/
theorem hex4_negative : ∀ c : UInt8, 0x80 ≤ c →
    ∃ h0 h1 h2 h3, int2fourhex (c.toNat - 256) = [h0, h1, h2, h3] ∧
      hex4 h0 h1 h2 h3 = none := by
  refine forall_byte ?_
  intro n hn hc
  refine ⟨_, _, _, _, rfl, ?_⟩
  revert n
  decide +kernel

theorem special_not_high : ∀ c : UInt8, 0x80 ≤ c →
    c ≠ 0x5C ∧ c ≠ 0x22 ∧ c ≠ 0x08 ∧ c ≠ 0x0C ∧ c ≠ 0x0A ∧ c ≠ 0x0D ∧ c ≠ 0x09 := by
  refine forall_byte ?_
  decide +kernel

/-- A negative `char` is written as something that is no escape. -/
theorem stringBody_escape_negative {c : UInt8} (hs : p.charSigned = true) (hc : 0x80 ≤ c)
    (rest : List UInt8) : stringBody (escape p c ++ rest) = none := by
  obtain ⟨h5c, h22, h08, h0c, h0a, h0d, h09⟩ := special_not_high c hc
  obtain ⟨h0, h1, h2, h3, hdigits, hhex⟩ := hex4_negative c hc
  have hlow : charValue p c < 32 := by
    rw [charValue_of_signed hs hc]
    have hlt := c.toNat_lt
    omega
  rw [escape, if_neg h5c, if_neg h22, if_neg h08, if_neg h0c, if_neg h0a, if_neg h0d, if_neg h09,
    if_pos hlow, charValue_of_signed hs hc, hdigits]
  exact stringBody_badHex hhex rest

/-- **Escapes are read back.** -/
theorem stringBody_escape {c : UInt8} (h : ¬(p.charSigned = true ∧ 0x80 ≤ c))
    (rest : List UInt8) :
    stringBody (escape p c ++ rest) = (stringBody rest).map fun (s, rest) => (c :: s, rest) := by
  unfold escape
  rw [charValue_of_not h]
  split_ifs with h5c h22 h08 h0c h0a h0d h09 hlow
  · subst h5c
    exact stringBody_simple (by decide) rest
  · subst h22
    exact stringBody_simple (by decide) rest
  · subst h08
    exact stringBody_simple (by decide) rest
  · subst h0c
    exact stringBody_simple (by decide) rest
  · subst h0a
    exact stringBody_simple (by decide) rest
  · subst h0d
    exact stringBody_simple (by decide) rest
  · subst h09
    exact stringBody_simple (by decide) rest
  · have hc : c < 0x20 := UInt8.lt_iff_toNat_lt.mpr (by exact_mod_cast hlow)
    obtain ⟨h0, h1, h2, h3, hdigits, hhex, hscalar, hutf8⟩ := hex4_control c hc
    have hread := stringBody_unicode hhex hscalar rest
    rw [hutf8] at hread
    rw [hdigits]
    exact hread
  · have hc : 0x20 ≤ c := UInt8.le_iff_toNat_le.mpr (by
      change (32 : Nat) ≤ c.toNat
      omega)
    exact stringBody_plain h22 h5c hc rest

/-- What a reader gets from the body of a quoted string. -/
def readBack (p : Platform) (s : List UInt8) : Option (List UInt8) :=
  if p.charSigned = true ∧ ∃ b ∈ s, 0x80 ≤ b then none else some s

theorem stringBody_quoted (s rest : List UInt8) :
    stringBody (s.flatMap (escape p) ++ [0x22] ++ rest) =
      (readBack p s).map fun s => (s, rest) := by
  induction s with
  | nil =>
      have hnone : ¬(p.charSigned = true ∧ ∃ b ∈ ([] : List UInt8), 0x80 ≤ b) :=
        fun ⟨_, b, hb, _⟩ => List.not_mem_nil hb
      rw [readBack, if_neg hnone]
      exact stringBody_end rest
  | cons c s ih =>
      rw [List.flatMap_cons, List.append_assoc, List.append_assoc, ← List.append_assoc _ [_]]
      by_cases hc : p.charSigned = true ∧ 0x80 ≤ c
      · rw [stringBody_escape_negative hc.1 hc.2, readBack,
          if_pos ⟨hc.1, c, List.mem_cons_self, hc.2⟩]
        rfl
      · rw [stringBody_escape hc, ih]
        unfold readBack
        by_cases hs : p.charSigned = true ∧ ∃ b ∈ s, 0x80 ≤ b
        · obtain ⟨hsigned, b, hb, hhigh⟩ := hs
          rw [if_pos ⟨hsigned, b, hb, hhigh⟩, if_pos ⟨hsigned, b, List.mem_cons_of_mem c hb, hhigh⟩]
          rfl
        · have hcons : ¬(p.charSigned = true ∧ ∃ b ∈ c :: s, 0x80 ≤ b) := by
            rintro ⟨hsigned, b, hb, hhigh⟩
            rcases List.mem_cons.mp hb with rfl | hb
            · exact hc ⟨hsigned, hhigh⟩
            · exact hs ⟨hsigned, b, hb, hhigh⟩
          rw [if_neg hs, if_neg hcons]
          rfl

theorem int2fourhex_ascii : ∀ c : UInt8,
    (int2fourhex c.toNat).all (fun b => b ≠ 0 ∧ b < 0x80) = true ∧
      (int2fourhex (c.toNat - 256)).all (fun b => b ≠ 0 ∧ b < 0x80) = true := by
  refine forall_byte ?_
  decide +kernel

/-- A byte is written as it is, or as characters of ASCII. -/
theorem escape_cases (c : UInt8) :
    (escape p c = [c] ∧ ¬ charValue p c < 32) ∨ ∀ b ∈ escape p c, b ≠ 0 ∧ b < 0x80 := by
  unfold escape
  split_ifs with h5c h22 h08 h0c h0a h0d h09 hlow
  · exact .inr (forall_of_all (by decide))
  · exact .inr (forall_of_all (by decide))
  · exact .inr (forall_of_all (by decide))
  · exact .inr (forall_of_all (by decide))
  · exact .inr (forall_of_all (by decide))
  · exact .inr (forall_of_all (by decide))
  · exact .inr (forall_of_all (by decide))
  · right
    intro b hb
    rcases List.mem_append.mp hb with hb | hb
    · exact @forall_of_all (fun b => b ≠ 0 ∧ b < 0x80) _ [0x5C, 0x75] (by decide) b hb
    · by_cases hc : p.charSigned = true ∧ 0x80 ≤ c
      · rw [charValue_of_signed hc.1 hc.2] at hb
        exact forall_of_all (int2fourhex_ascii c).2 b hb
      · rw [charValue_of_not hc] at hb
        exact forall_of_all (int2fourhex_ascii c).1 b hb
  · exact .inl ⟨rfl, hlow⟩

/-- A quoted string has no terminator in it. -/
theorem escape_ne_zero (c : UInt8) : ∀ b ∈ escape p c, b ≠ 0 := by
  intro b hb
  rcases @escape_cases p c with ⟨heq, hlow⟩ | hascii
  · rw [heq] at hb
    intro hzero
    obtain rfl : c = 0 := (List.mem_singleton.mp hb).symm.trans hzero
    have hvalue : charValue p 0 = 0 := charValue_of_not fun h => absurd h.2 (by decide)
    rw [hvalue] at hlow
    exact hlow (by decide)
  · exact (hascii b hb).1

/-- What `quote` returns, where it does. -/
theorem quote_eq (s : List UInt8) :
    quote p s = if s = [] ∨ INT_MAX ≤ quoteCount p s then none
      else some (0x22 :: (s.flatMap (escape p) ++ [0x22])) := by
  have hcstr : cstr (0x22 :: (s.flatMap (escape p) ++ [0x22])) =
      0x22 :: (s.flatMap (escape p) ++ [0x22]) := by
    unfold cstr
    rw [List.takeWhile_eq_self_iff]
    intro b hb
    rw [decide_eq_true_iff]
    rcases List.mem_cons.mp hb with rfl | hb
    · decide
    · rcases List.mem_append.mp hb with hb | hb
      · obtain ⟨c, -, hb⟩ := List.mem_flatMap.mp hb
        exact escape_ne_zero c b hb
      · exact @forall_of_all (· ≠ 0) _ [0x22] (by decide) b hb
  have hempty : quoteCount p s + 1 < 4 ↔ s = [] := by
    cases s with
    | nil => exact iff_of_true (by decide : 2 + 0 + 0 + 1 < 4) rfl
    | cons c s =>
        refine iff_of_false ?_ (List.cons_ne_nil c s)
        rw [quoteCount, List.length_cons]
        omega
  unfold quote
  simp only [quote_length, hcstr, hempty, Nat.lt_irrefl, or_false, Nat.lt_succ_iff,
    ← Nat.succ_eq_add_one]
  simp only [or_comm]

/-- The strings that are read back. -/
theorem quotable_iff (s : List UInt8) :
    Quotable p s ↔ ¬(s = [] ∨ INT_MAX ≤ quoteCount p s) ∧ luaO_str2d p s = none ∧
      readBack p s = some s := by
  have hread : readBack p s = some s ↔ (p.charSigned = true → ∀ b ∈ s, b < 0x80) := by
    unfold readBack
    by_cases hs : p.charSigned = true ∧ ∃ b ∈ s, 0x80 ≤ b
    · rw [if_pos hs]
      obtain ⟨hsigned, b, hb, hhigh⟩ := hs
      exact iff_of_false nofun fun h => absurd (h hsigned b hb) (UInt8.not_lt.mpr hhigh)
    · rw [if_neg hs]
      refine iff_of_true rfl ?_
      intro hsigned b hb
      exact UInt8.not_le.mp fun hhigh => hs ⟨hsigned, b, hb, hhigh⟩
  rw [hread, not_or, Nat.not_le, Quotable]
  tauto

/-! ## What is written of a value -/

/-- A text, if there is one, is read to something, which is right if what it is
written for is good. -/
def Outcome {T S V : Type} (R : T → S → Prop) (value : S → Option V) (text : Option T) (json : V)
    (good : Prop) : Prop :=
  match text with
  | none => ¬good
  | some t => ∃ r, R t r ∧ (value r = some json ↔ good)

def Written (p : Platform) (v : Value) : Prop :=
  Outcome Reads id (stringify p v) (toJson v) (Sound p v)

def KeyWritten (p : Platform) (k : Key) : Prop :=
  Outcome ReadsName id (stringifyKey p k) k.name (k.Sound p)

theorem jsonNumber_ne_string (x : Number) (s : List UInt8) :
    jsonNumber 14 x ≠ some (.string s) := by
  unfold jsonNumber
  split <;> nofun

/-- A quoted string, as a value and as a name. -/
theorem reads_quoted (s : List UInt8) :
    Reads (0x22 :: (s.flatMap (escape p) ++ [0x22])) ((readBack p s).map .string) ∧
      ReadsName (0x22 :: (s.flatMap (escape p) ++ [0x22])) (readBack p s) :=
  reads_literal (stringBody_quoted s)

theorem written_string (s : List UInt8) : Written p (.string s) := by
  unfold Written
  rw [stringify, stringifyString]
  cases hnum : luaO_str2d p s with
  | some x =>
      have hsound : ¬Sound p (.string s) := by
        rw [Sound]
        exact fun h => absurd (hnum.symm.trans h.2.1) nofun
      exact ⟨_, reads_formatG 14 x, iff_of_false (jsonNumber_ne_string x s) hsound⟩
  | none =>
      rw [quote_eq, Sound, quotable_iff, toJson]
      by_cases hs : s = [] ∨ INT_MAX ≤ quoteCount p s
      · rw [if_pos hs]
        exact fun h => h.1 hs
      · rw [if_neg hs]
        refine ⟨_, reads_quoted s |>.1, ?_⟩
        have hmap : (readBack p s).map Json.Value.string = some (.string s) ↔
            readBack p s = some s := by
          cases readBack p s <;> simp
        exact hmap.trans ⟨fun h => ⟨hs, hnum, h⟩, fun h => h.2.2⟩

theorem written_key (k : Key) : KeyWritten p k := by
  unfold KeyWritten
  cases k with
  | other _ => exact fun h => h
  | number x => exact ⟨none, readsName_formatG 14 x, iff_of_false nofun id⟩
  | string s =>
      change Outcome ReadsName id (stringifyString p s) s (Quotable p s)
      rw [stringifyString]
      cases hnum : luaO_str2d p s with
      | some x =>
          exact ⟨none, readsName_formatG 14 x,
            iff_of_false nofun fun h => absurd (hnum.symm.trans h.2.1) nofun⟩
      | none =>
          rw [quote_eq, quotable_iff]
          by_cases hs : s = [] ∨ INT_MAX ≤ quoteCount p s
          · rw [if_pos hs]
            exact fun h => h.1 hs
          · rw [if_neg hs]
            exact ⟨_, reads_quoted s |>.2, ⟨fun h => ⟨hs, hnum, h⟩, fun h => h.2.2⟩⟩

/-! ## Tables -/

theorem joined_none : ∀ (first : Bool) {ts : List (Option (List UInt8))}, none ∈ ts →
    joined first ts = none
  | first, none :: ts, _ => rfl
  | first, some t :: ts, h => by
      have hrest : none ∈ ts := (List.mem_cons.mp h).resolve_left nofun
      rw [joined, joined_none false hrest]
      rfl

theorem joined_more : ∀ ts : List (List UInt8), joined false (ts.map some) = some (moreElements ts)
  | [] => rfl
  | t :: ts => by
      rw [List.map_cons, joined, joined_more ts]
      rfl

theorem joined_some (t : List UInt8) (ts : List (List UInt8)) :
    joined true ((t :: ts).map some) = some (t ++ moreElements ts) := by
  rw [List.map_cons, joined, joined_more ts]
  rfl

/-- **Lists of texts.**  When each text of a list is read to something, which is
right if what it is written for is good, then so is the list. -/
theorem all_read {X T S V : Type} {text : X → Option T} {R : T → S → Prop}
    {value : S → Option V} {json : X → V} {good : X → Prop} {xs : List X}
    (h : ∀ x ∈ xs, Outcome R value (text x) (json x) (good x)) :
    (∃ x ∈ xs, text x = none ∧ ¬good x) ∨
      ∃ ts rs, xs.map text = ts.map some ∧ List.Forall₂ R ts rs ∧
        (allSome (rs.map value) = some (xs.map json) ↔ ∀ x ∈ xs, good x) := by
  induction xs with
  | nil => exact .inr ⟨[], [], rfl, .nil, iff_of_true rfl fun x hx => absurd hx List.not_mem_nil⟩
  | cons x xs ih =>
      have hx := h x List.mem_cons_self
      cases htext : text x with
      | none =>
          rw [htext] at hx
          exact .inl ⟨x, List.mem_cons_self, htext, hx⟩
      | some t =>
          rw [htext] at hx
          obtain ⟨r, hr, hgood⟩ := hx
          rcases ih fun y hy => h y (List.mem_cons_of_mem x hy) with
            ⟨y, hy, hnone, hbad⟩ | ⟨ts, rs, hts, hrs, hall⟩
          · exact .inl ⟨y, List.mem_cons_of_mem x hy, hnone, hbad⟩
          · refine .inr ⟨t :: ts, r :: rs, ?_, .cons hr hrs, ?_⟩
            · rw [List.map_cons, List.map_cons, htext, hts]
            · rw [List.forall_mem_cons, ← hgood, ← hall, List.map_cons, List.map_cons, allSome]
              cases value r with
              | none => exact iff_of_false (by intro h; cases h) fun h => absurd h.1 (by intro h; cases h)
              | some v =>
                  rw [Option.bind_some]
                  cases allSome (rs.map value) with
                  | none => exact iff_of_false (by intro h; cases h) fun h => absurd h.2 (by intro h; cases h)
                  | some vs => simp

/-- The texts of the name and of the value of an entry. -/
def pairText (p : Platform) (e : Key × Value) : Option (List UInt8 × List UInt8) :=
  (stringifyKey p e.1).bind fun key => (stringify p e.2).map fun value => (key, value)

theorem entryText_eq (e : Key × Value) :
    entryText p (Prod.map id (stringify p) e) = (pairText p e).map memberText := by
  change (stringifyKey p e.1).bind _ = _
  unfold pairText
  cases stringifyKey p e.1 with
  | none => rfl
  | some key =>
      change (stringify p e.2).map _ = ((stringify p e.2).map _).map memberText
      cases stringify p e.2 <;> rfl

/-- An entry of an object. -/
theorem written_entry {e : Key × Value} (h : Written p e.2) :
    Outcome ReadsMember both (pairText p e) (e.1.name, toJson e.2)
      (e.1.Sound p ∧ Sound p e.2) := by
  have hkey := written_key (p := p) e.1
  unfold KeyWritten at hkey
  unfold Written at h
  unfold pairText
  cases hk : stringifyKey p e.1 with
  | none =>
      rw [hk] at hkey
      exact fun hsound => hkey hsound.1
  | some key =>
      rw [hk] at hkey
      obtain ⟨rname, hrname, hname⟩ := hkey
      cases hv : stringify p e.2 with
      | none =>
          rw [hv] at h
          exact fun hsound => h hsound.2
      | some value =>
          rw [hv] at h
          obtain ⟨r, hr, hvalue⟩ := h
          refine ⟨(rname, r), ⟨hrname, hr⟩, ?_⟩
          rw [← hname, ← hvalue]
          unfold both
          cases rname with
          | none => exact iff_of_false nofun fun h => absurd h.1 nofun
          | some s => cases r <;> simp

/-- An array. -/
theorem written_items {v : Value} {vs : List Value} (h : ∀ w ∈ v :: vs, Written p w) :
    Outcome Reads id
      ((joined true ((v :: vs).map (stringify p))).map fun t => 0x5B :: (t ++ [0x5D]))
      (.array ((v :: vs).map toJson)) (∀ w ∈ v :: vs, Sound p w) := by
  have hall := all_read h
  rcases hall with ⟨w, hw, hnone, hbad⟩ | ⟨ts, rs, hts, hrs, hiff⟩
  · have hmem : none ∈ (v :: vs).map (stringify p) := hnone ▸ List.mem_map_of_mem hw
    rw [joined_none true hmem]
    exact fun hsound => hbad (hsound w hw)
  · rw [hts]
    rw [List.map_id] at hiff
    cases hrs with
    | nil => cases hts
    | @cons t r ts rs hr hrs =>
        rw [joined_some]
        have harray := reads_array hr hrs
        rw [← List.append_assoc] at harray
        refine ⟨_, harray, ?_⟩
        rw [← hiff]
        cases allSome (r :: rs) <;> simp

/-- An object. -/
theorem written_members {es : List (Key × Value)} (h : ∀ e ∈ es, Written p e.2) :
    Outcome Reads id
      ((joined true ((es.map (Prod.map id (stringify p))).map (entryText p))).map
        fun t => 0x7B :: (t ++ [0x7D]))
      (.object (es.map fun e => (e.1.name, toJson e.2)))
      (∀ e ∈ es, e.1.Sound p ∧ Sound p e.2) := by
  have htexts : (es.map (Prod.map id (stringify p))).map (entryText p) =
      (es.map (pairText p)).map (Option.map memberText) := by
    rw [List.map_map, List.map_map]
    exact List.map_congr_left fun e _ => entryText_eq e
  have hall := all_read fun e he => written_entry (h e he)
  rw [htexts]
  rcases hall with ⟨e, he, hnone, hbad⟩ | ⟨ms, rs, hms, hrs, hiff⟩
  · have hmem : none ∈ (es.map (pairText p)).map (Option.map memberText) :=
      List.mem_map.mpr ⟨none, hnone ▸ List.mem_map_of_mem he, rfl⟩
    rw [joined_none true hmem]
    exact fun hsound => hbad (hsound e he)
  · have hsome : (ms.map some).map (Option.map memberText) = (ms.map memberText).map some := by
      rw [List.map_map, List.map_map]
      rfl
    rw [hms, hsome]
    cases hrs with
    | nil =>
        refine ⟨_, reads_emptyObject, ?_⟩
        rw [← hiff]
        simp [allSome]
    | @cons m r ms rs hr hrs =>
        rw [List.map_cons, joined_some]
        have hmore : moreElements (ms.map memberText) = moreMembers ms := List.flatMap_map ..
        have hobject := reads_object hr hrs
        rw [← List.append_assoc, ← hmore] at hobject
        refine ⟨_, hobject, ?_⟩
        rw [← hiff]
        cases allSome ((r :: rs).map both) <;> simp

/-- A table, when its values are written. -/
theorem written_table {es : Entries} (h : ∀ e ∈ es.toList, Written p e.2) :
    Written p (.table es) := by
  unfold Written
  rw [stringify, stringifyTable, texts_eq, Sound, SoundTable, sounds_eq, toJson, jsonTable,
    jsons_eq]
  simp only [get_onValues, items_onValues, members_onValues]
  cases hfirst : get es.toList (index 1) with
  | none =>
      have hmembers := @written_members p (members es.toList) fun e he =>
        h e (List.mem_of_mem_filter he)
      have hnames : ((members es.toList).map (Prod.map id toJson)).map
          (fun e => (e.1.name, e.2)) =
            (members es.toList).map fun e => (e.1.name, toJson e.2) := by
        rw [List.map_map]
        rfl
      simp only [Option.map_none, hnames, List.forall_mem_map]
      exact hmembers
  | some v =>
      obtain ⟨vs, hitems⟩ := items_cons hfirst
      simp only [Option.map_some, hitems, List.forall_mem_map]
      refine written_items fun w hw => ?_
      obtain ⟨e, he, rfl⟩ := mem_of_items (hitems ▸ hw)
      exact h e he

mutual

/-- **What is written of any value but nil.**  It is read to the JSON value of
the value exactly if that is sound. -/
theorem written : ∀ v : Value, v.Plain → Written p v
  | .boolean true, _ => ⟨_, reads_true, iff_of_true rfl trivial⟩
  | .boolean false, _ => ⟨_, reads_false, iff_of_true rfl trivial⟩
  | .number x, h => ⟨_, reads_formatG 14 x, iff_of_true (if_pos h) trivial⟩
  | .string s, _ => written_string s
  | .sentinel, _ => ⟨_, reads_null, iff_of_true rfl trivial⟩
  | .table es, h => written_table (entries_written es h)

theorem entries_written : ∀ es : Entries, es.Plain → ∀ e ∈ es.toList, Written p e.2
  | .nil, _, _, he => absurd he List.not_mem_nil
  | .cons k v rest, h, e, he => by
      rcases List.mem_cons.mp he with rfl | he
      · exact written v h.2.1
      · exact entries_written rest h.2.2 e he

end

/-! ## What is written is UTF-8 -/

/-- Only where `char` is unsigned a byte outside of ASCII is written. -/
theorem escape_ascii {c : UInt8} (h : p.charSigned = true ∨ c < 0x80) :
    ∀ b ∈ escape p c, b < 0x80 := by
  intro b hb
  rcases @escape_cases p c with ⟨heq, hlow⟩ | hascii
  · rw [heq] at hb
    rw [List.mem_singleton.mp hb]
    rcases h with h | h
    · refine UInt8.not_le.mp fun hhigh => hlow ?_
      rw [charValue_of_signed h hhigh]
      have hlt := c.toNat_lt
      omega
    · exact h
  · exact (hascii b hb).2

theorem escape_high {c : UInt8} (h : ¬p.charSigned = true) (hc : 0x80 ≤ c) :
    escape p c = [c] := by
  obtain ⟨h5c, h22, h08, h0c, h0a, h0d, h09⟩ := special_not_high c hc
  have hvalue : charValue p c = c.toNat := charValue_of_not fun hs => h hs.1
  have hlow : ¬charValue p c < 32 := by
    rw [hvalue]
    have hle : 128 ≤ c.toNat := UInt8.le_iff_toNat_le.mp hc
    omega
  rw [escape, if_neg h5c, if_neg h22, if_neg h08, if_neg h0c, if_neg h0a, if_neg h0d, if_neg h09,
    if_neg hlow]

theorem isUtf8_escaped {s : List UInt8} (h : IsUtf8 s) : IsUtf8 (s.flatMap (escape p)) := by
  have hascii : ∀ {t : List UInt8}, (∀ b ∈ t, p.charSigned = true ∨ b < 0x80) →
      IsUtf8 (t.flatMap (escape p)) := by
    intro t ht
    refine isUtf8_ascii fun b hb => ?_
    obtain ⟨c, hc, hb⟩ := List.mem_flatMap.mp hb
    exact escape_ascii (ht c hc) b hb
  by_cases hs : p.charSigned = true
  · exact hascii fun b _ => .inl hs
  · obtain ⟨cs, rfl⟩ := h
    induction cs with
    | nil => exact isUtf8_nil
    | cons c cs ih =>
        have hsplit : utf8 (c :: cs) = String.utf8EncodeChar c ++ utf8 cs := List.flatMap_cons
        rw [hsplit, List.flatMap_append]
        refine isUtf8_append ?_ ih
        by_cases hc : c.val.toNat ≤ 0x7F
        · exact hascii fun b hb => .inr (utf8EncodeChar_low hc b hb)
        · have hsame : (String.utf8EncodeChar c).flatMap (escape p) = String.utf8EncodeChar c := by
            rw [List.flatMap_congr fun b hb => escape_high hs (utf8EncodeChar_high hc b hb)]
            exact List.flatMap_singleton' _
          rw [hsame]
          exact ⟨[c], (List.flatMap_singleton ..).symm⟩

theorem isUtf8_string {s t : List UInt8} (hs : IsUtf8 s) (h : stringifyString p s = some t) :
    IsUtf8 t := by
  rw [stringifyString] at h
  cases hnum : luaO_str2d p s with
  | some x =>
      rw [hnum] at h
      exact Option.some.inj h ▸ isUtf8_ascii (formatG_ascii 14 x)
  | none =>
      rw [hnum] at h
      change quote p s = some t at h
      rw [quote_eq] at h
      split at h
      · cases h
      · rw [← Option.some.inj h]
        have hquote : IsUtf8 [0x22] := isUtf8_of_all (by decide)
        exact isUtf8_append hquote (isUtf8_append (isUtf8_escaped hs) hquote)

theorem isUtf8_joined : ∀ (first : Bool) {ts : List (Option (List UInt8))} {t : List UInt8},
    (∀ x ∈ ts, ∀ t, x = some t → IsUtf8 t) → joined first ts = some t → IsUtf8 t
  | _, [], t, _, h => Option.some.inj h ▸ isUtf8_nil
  | first, none :: ts, t, _, h => by cases h
  | first, some x :: ts, t, hall, h => by
      obtain ⟨rest, hrest, rfl⟩ := Option.map_eq_some_iff.mp h
      have hx := hall (some x) List.mem_cons_self x rfl
      refine isUtf8_append ?_
        (isUtf8_joined false (fun y hy => hall y (List.mem_cons_of_mem _ hy)) hrest)
      cases first with
      | true => exact hx
      | false => exact isUtf8_append (@isUtf8_of_all [0x2C] (by decide)) hx

theorem isUtf8_bracketed {b c : UInt8} {t : List UInt8} (hb : b < 0x80) (hc : c < 0x80)
    (h : IsUtf8 t) : IsUtf8 (b :: (t ++ [c])) := by
  have hone : ∀ {x : UInt8}, x < 0x80 → IsUtf8 [x] := by
    intro x hx
    refine isUtf8_ascii fun y hy => ?_
    rw [List.mem_singleton.mp hy]
    exact hx
  exact isUtf8_append (hone hb) (isUtf8_append h (hone hc))

mutual

theorem isUtf8_stringify : ∀ (v : Value) {t : List UInt8}, v.Plain → stringify p v = some t →
    IsUtf8 t
  | .boolean true, t, _, h => Option.some.inj h ▸ isUtf8_of_all (by decide)
  | .boolean false, t, _, h => Option.some.inj h ▸ isUtf8_of_all (by decide)
  | .number x, t, _, h => Option.some.inj h ▸ isUtf8_ascii (formatG_ascii 14 x)
  | .string s, t, hv, h => isUtf8_string hv.1 h
  | .sentinel, t, _, h => Option.some.inj h ▸ isUtf8_of_all (by decide)
  | .table es, t, hv, h => by
      have hes := isUtf8_entries es hv
      rw [stringify, stringifyTable, texts_eq] at h
      simp only [get_onValues, items_onValues, members_onValues] at h
      cases hfirst : get es.toList (index 1) with
      | none =>
          rw [hfirst] at h
          obtain ⟨body, hbody, rfl⟩ := Option.map_eq_some_iff.mp h
          refine isUtf8_bracketed (by decide) (by decide) (isUtf8_joined true ?_ hbody)
          intro x hx t ht
          obtain ⟨e', he', rfl⟩ := List.mem_map.mp hx
          obtain ⟨e, he, rfl⟩ := List.mem_map.mp he'
          obtain ⟨hkey, hvalue⟩ := hes e (List.mem_of_mem_filter he)
          obtain ⟨key, hk, hrest⟩ := Option.bind_eq_some_iff.mp ht
          obtain ⟨value, hval, rfl⟩ := Option.map_eq_some_iff.mp hrest
          change stringify p e.2 = some value at hval
          have hcolon : IsUtf8 [0x3A] := isUtf8_of_all (by decide)
          exact isUtf8_append (hkey key hk) (isUtf8_append hcolon (hvalue value hval))
      | some v =>
          rw [hfirst] at h
          obtain ⟨body, hbody, rfl⟩ := Option.map_eq_some_iff.mp h
          refine isUtf8_bracketed (by decide) (by decide) (isUtf8_joined true ?_ hbody)
          intro x hx t ht
          obtain ⟨w, hw, rfl⟩ := List.mem_map.mp hx
          obtain ⟨e, he, rfl⟩ := mem_of_items hw
          exact (hes e he).2 t ht

theorem isUtf8_entries : ∀ (es : Entries), es.Plain → ∀ e ∈ es.toList,
    (∀ t, stringifyKey p e.1 = some t → IsUtf8 t) ∧ ∀ t, stringify p e.2 = some t → IsUtf8 t
  | .nil, _, _, he => absurd he List.not_mem_nil
  | .cons k v rest, h, e, he => by
      rcases List.mem_cons.mp he with rfl | he
      · refine ⟨?_, fun t => isUtf8_stringify v h.2.1⟩
        intro t ht
        cases k with
        | string s => exact isUtf8_string h.1.1 ht
        | number x => exact Option.some.inj ht ▸ isUtf8_ascii (formatG_ascii 14 x)
        | other id => cases ht
      · exact isUtf8_entries rest h.2.2 e he

end

/-! ## The result -/

/-- A compiler with an unsigned `char`, and numbers that no string stands for. -/
def plainPlatform : Platform := ⟨false, fun _ => (.finite false 0, 0), fun _ => (0, 0)⟩

/-- `{ a = true }`. -/
def sampleTable : Value := .table (.cons (.string [0x61]) (.boolean true) .nil)

/-- `{ [2] = true }`. -/
def numericName : Value := .table (.cons (.number (ofInt 2)) (.boolean true) .nil)

theorem numericName_plain : numericName.Plain := by
  have hkey : Key.Plain (.number (ofInt 2)) := rfl
  exact ⟨hkey, trivial, trivial⟩

end LuaJson
