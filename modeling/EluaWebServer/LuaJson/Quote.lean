import EluaWebServer.LuaJson.Validity
import EluaWebServer.Lib.Buffer

/-!
# The buffer of a quoted string

`quote` once more, with the stores that it makes to what it has allocated.  What was there before
is a parameter.
-/

namespace LuaJson

open Buffer Json

/-- An addition to an `int`. -/
def intAdd (a b : Nat) : Option Nat := if a + b ≤ INT_MAX then some (a + b) else none

section

variable (p : Platform)

/-- The first loop. -/
def countLoop : List UInt8 → Nat → Option Nat
  | [], count => some count
  | c :: s, count => (intAdd count (escapeExtra p c)).bind (countLoop s)

/-- What is stored for a character, and how far `newc` moves.  `int2fourhex` stores a terminator
behind its digits. -/
def charStores (c : UInt8) : List UInt8 × Nat :=
  if c = 0x5C then ([0x5C, 0x5C], 2)
  else if c = 0x22 then ([0x5C, 0x22], 2)
  else if c = 0x08 then ([0x5C, 0x62], 2)
  else if c = 0x0C then ([0x5C, 0x66], 2)
  else if c = 0x0A then ([0x5C, 0x6E], 2)
  else if c = 0x0D then ([0x5C, 0x72], 2)
  else if c = 0x09 then ([0x5C, 0x74], 2)
  else if charValue p c < 32 then ([0x5C, 0x75] ++ (int2fourhex (charValue p c) ++ [0]), 2 + 4)
  else ([c], 1)

/-- The second loop. -/
def quoteLoop : List UInt8 → List UInt8 → Nat → Option (List UInt8 × Nat)
  | [], newS, newc => some (newS, newc)
  | c :: s, newS, newc =>
      (storeAll newS newc (charStores p c).1).bind fun newS =>
        quoteLoop s newS (newc + (charStores p c).2)

/-- The buffer that `quote` returns.  There is no result when a store goes out of it, or an `int`
overflows. -/
def quoteBuffer (fresh : Nat → UInt8) (S : List UInt8) : Option (List UInt8) :=
  (intAdd 2 S.length).bind fun count =>
    (countLoop p S count).bind fun count =>
      (intAdd count 1).bind fun size =>
        (storeAll ((List.range size).map fresh) 0 [0x22, 0x61, 0x62, 0x63]).bind fun newS =>
          (quoteLoop p S newS 1).bind fun (newS, newc) => storeAll newS newc [0x22, 0]

end

/-- The characters that a reader has to get back: those that JSON requires to be escaped, and
those that are printed. -/
def Required (c : UInt8) : Prop := c < 0x20 ∨ c = 0x22 ∨ c = 0x5C ∨ 0x20 ≤ c ∧ c < 0x7F

/-- A string that comes from pieces for each character, where a required one is itself. -/
def Decodes (S t : List UInt8) : Prop :=
  ∃ pieces : List (List UInt8), t = pieces.flatten ∧ pieces.length = S.length ∧
    ∀ (i : Nat) (c : UInt8), S[i]? = some c → Required c → pieces[i]? = some [c]

/-- What has been counted is written, and is a string literal. -/
def Counted (p : Platform) (fresh : Nat → UInt8) (S : List UInt8) : Prop :=
  ∃ count body t, ((intAdd 2 S.length).bind (countLoop p S)) = some count ∧
    quoteBuffer p fresh S = some (0x22 :: body ++ [0]) ∧
    (0x22 :: body).length = count ∧ 0 ∉ 0x22 :: body ∧
    stringBody body = some (t, []) ∧ Decodes S t

/-- How long a string literal is. -/
def literalLength (S : List UInt8) : Nat :=
  2 + (S.map fun c =>
    if c ∈ [0x5C, 0x22, 0x08, 0x0C, 0x0A, 0x0D, 0x09] then 2 else if c < 0x20 then 6 else 1).sum

variable {p : Platform} {fresh : Nat → UInt8} {S s newS : List UInt8} {newc count : Nat}

/-! ## Counting -/

theorem intAdd_eq_some {a b c : Nat} : intAdd a b = some c ↔ a + b = c ∧ c ≤ INT_MAX := by
  rw [intAdd]
  split
  · rename_i hle
    constructor
    · intro h
      obtain rfl := Option.some.inj h
      exact ⟨rfl, hle⟩
    · rintro ⟨rfl, -⟩
      rfl
  · rename_i hlt
    refine iff_of_false nofun ?_
    rintro ⟨rfl, hle⟩
    exact hlt hle

/-- The first loop counts what the characters need, unless that is too much. -/
theorem countLoop_eq_some (hcount : count ≤ INT_MAX) {total : Nat} :
    countLoop p s count = some total ↔
      count + (s.map (escapeExtra p)).sum = total ∧ total ≤ INT_MAX := by
  induction s generalizing count with
  | nil =>
      rw [countLoop, List.map_nil, List.sum_nil, Nat.add_zero, Option.some.injEq]
      exact ⟨fun h => ⟨h, h ▸ hcount⟩, fun h => h.1⟩
  | cons c s ih =>
      rw [countLoop, Option.bind_eq_some_iff, List.map_cons, List.sum_cons]
      constructor
      · rintro ⟨next, hadd, hrest⟩
        obtain ⟨rfl, hle⟩ := intAdd_eq_some.mp hadd
        obtain ⟨htotal, hmax⟩ := (ih hle).mp hrest
        exact ⟨by omega, hmax⟩
      · rintro ⟨htotal, hmax⟩
        have hle : count + escapeExtra p c ≤ INT_MAX := by omega
        exact ⟨_, intAdd_eq_some.mpr ⟨rfl, hle⟩, (ih hle).mpr ⟨by omega, hmax⟩⟩

/-- **The count** is that of the whole text. -/
theorem counted_eq_some {total : Nat} :
    (intAdd 2 S.length).bind (countLoop p S) = some total ↔
      quoteCount p S = total ∧ total ≤ INT_MAX := by
  rw [Option.bind_eq_some_iff, quoteCount]
  constructor
  · rintro ⟨start, hadd, hloop⟩
    obtain ⟨rfl, hle⟩ := intAdd_eq_some.mp hadd
    exact (countLoop_eq_some hle).mp hloop
  · rintro ⟨htotal, hmax⟩
    have hle : 2 + S.length ≤ INT_MAX := by omega
    exact ⟨_, intAdd_eq_some.mpr ⟨rfl, hle⟩, (countLoop_eq_some hle).mpr ⟨htotal, hmax⟩⟩

/-! ## Writing -/

/-- What is stored for a character is its escape, sometimes with a terminator behind it. -/
theorem charStores_eq (p : Platform) (c : UInt8) : (charStores p c).2 = (escape p c).length ∧
    ((charStores p c).1 = escape p c ∨ (charStores p c).1 = escape p c ++ [0]) := by
  unfold charStores escape
  split_ifs <;> simp [int2fourhex]

/-- **The second loop**, with room for the closing quotation mark and the terminator. -/
theorem quoteLoop_eq (hroom : newc + (s.flatMap (escape p)).length + 2 ≤ newS.length) :
    ∃ newS', quoteLoop p s newS newc = some (newS', newc + (s.flatMap (escape p)).length) ∧
      newS'.length = newS.length ∧
      newS'.take (newc + (s.flatMap (escape p)).length) =
        newS.take newc ++ s.flatMap (escape p) := by
  induction s generalizing newS newc with
  | nil => exact ⟨newS, rfl, rfl, (List.append_nil _).symm⟩
  | cons c s ih =>
      rw [List.flatMap_cons, List.length_append] at hroom ⊢
      obtain ⟨hmove, hstores⟩ := charStores_eq p c
      have hlength : (charStores p c).1.length ≤ (escape p c).length + 1 := by
        rcases hstores with heq | heq
        · rw [heq]
          omega
        · rw [heq, List.length_append, List.length_singleton]
      have hfits : newc + (charStores p c).1.length ≤ newS.length := by omega
      have hsplice := splice_length hfits
      obtain ⟨newS', hloop, hlen, htake⟩ := @ih (splice newS newc (charStores p c).1)
        (newc + (escape p c).length) (by omega)
      refine ⟨newS', ?_, hlen.trans hsplice, ?_⟩
      · rw [quoteLoop, storeAll_eq_splice hfits, Option.bind_some, hmove, hloop, Nat.add_assoc]
      · have hfront : (splice newS newc (charStores p c).1).take (newc + (escape p c).length) =
            newS.take newc ++ escape p c := by
          rcases hstores with heq | heq
          · rw [heq]
            have h := take_splice (show newc ≤ newS.length by omega) (escape p c) []
            rwa [List.append_nil] at h
          · rw [heq]
            exact take_splice (by omega) _ _
        rw [← Nat.add_assoc, htake, hfront, List.append_assoc]

/-- What `quote` does after it has counted. -/
theorem quoteBuffer_of_count (hcount : quoteCount p S < INT_MAX) (hne : S ≠ []) :
    quoteBuffer p fresh S = some (0x22 :: (S.flatMap (escape p) ++ [0x22]) ++ [0]) := by
  have hcounted := counted_eq_some.mpr ⟨rfl, Nat.le_of_lt hcount⟩
  have hsize : intAdd (quoteCount p S) 1 = some (quoteCount p S + 1) :=
    intAdd_eq_some.mpr ⟨rfl, hcount⟩
  have hlength := quote_length (p := p) S
  rw [List.length_cons, List.length_append, List.length_singleton] at hlength
  have hpos : 0 < S.length := List.length_pos_iff.mpr hne
  have hmarks : quoteCount p S = 2 + S.length + (S.map (escapeExtra p)).sum := rfl
  rw [quoteBuffer, ← Option.bind_assoc, hcounted, Option.bind_some, hsize, Option.bind_some]
  -- what has been allocated, with the marks
  generalize hfresh : (List.range (quoteCount p S + 1)).map fresh = newS
  have hnewS : newS.length = quoteCount p S + 1 := by
    rw [← hfresh, List.length_map, List.length_range]
  have hroom : 0 + [(0x22 : UInt8), 0x61, 0x62, 0x63].length ≤ newS.length := by
    rw [hnewS]
    show 0 + 4 ≤ _
    omega
  have hfirst : (splice newS 0 [(0x22 : UInt8), 0x61, 0x62, 0x63]).take 1 = [0x22] := by
    rw [splice]
    rfl
  rw [storeAll_eq_splice hroom, Option.bind_some]
  have hmarked := splice_length hroom
  generalize splice newS 0 [(0x22 : UInt8), 0x61, 0x62, 0x63] = marked at hfirst hmarked
  obtain ⟨written, hloop, hwritten, htake⟩ := @quoteLoop_eq p S marked 1 (by omega)
  rw [hfirst] at htake
  have hend : 1 + (S.flatMap (escape p)).length + [(0x22 : UInt8), 0].length = written.length := by
    rw [hwritten, hmarked, hnewS, ← hlength]
    show _ + 2 = _
    omega
  rw [hloop, Option.bind_some]
  dsimp only
  rw [storeAll_eq_splice (Nat.le_of_eq hend), splice, htake, hend, List.drop_length,
    List.append_nil]
  simp

/-- **The buffer** holds the text and a terminator.  There is none for the empty string, for which
the marks do not fit, and for one that is too long. -/
theorem quoteBuffer_eq (p : Platform) (fresh : Nat → UInt8) (S : List UInt8) :
    quoteBuffer p fresh S =
      if S = [] ∨ INT_MAX ≤ quoteCount p S then none
      else some (0x22 :: (S.flatMap (escape p) ++ [0x22]) ++ [0]) := by
  split
  · rename_i hbad
    rcases hbad with rfl | hlong
    · rfl
    · cases hbuffer : quoteBuffer p fresh S with
      | none => rfl
      | some newS =>
          rw [quoteBuffer, ← Option.bind_assoc] at hbuffer
          obtain ⟨count, hcounted, hrest⟩ := Option.bind_eq_some_iff.mp hbuffer
          obtain ⟨size, hsize, -⟩ := Option.bind_eq_some_iff.mp hrest
          obtain ⟨rfl, -⟩ := counted_eq_some.mp hcounted
          obtain ⟨rfl, hmax⟩ := intAdd_eq_some.mp hsize
          exact absurd hlong (Nat.not_le.mpr hmax)
  · rename_i hgood
    rw [not_or, Nat.not_le] at hgood
    exact quoteBuffer_of_count hgood.2 hgood.1

/-- It is the string that is returned, with its terminator. -/
theorem quoteBuffer_eq_quote (p : Platform) (fresh : Nat → UInt8) (S : List UInt8) :
    quoteBuffer p fresh S = (quote p S).map (· ++ [0]) := by
  rw [quoteBuffer_eq, quote_eq]
  split <;> rfl

/-! ## Reading -/

/-- What is read back as itself. -/
theorem decodes_self (S : List UInt8) : Decodes S S := by
  refine ⟨S.map fun c => [c], ?_, List.length_map _, ?_⟩
  · exact (List.flatMap_singleton' S).symm
  · intro i c hc _
    rw [List.getElem?_map, hc]
    rfl

theorem readBack_of_ascii (hascii : p.charSigned = true → ∀ b ∈ S, b < 0x80) :
    readBack p S = some S := by
  rw [readBack, if_neg]
  rintro ⟨hsigned, b, hb, hhigh⟩
  exact absurd (hascii hsigned b hb) (UInt8.not_lt.mpr hhigh)

/-- The count is the length of the literal, where no character is negative. -/
theorem quoteCount_eq (hascii : p.charSigned = true → ∀ b ∈ S, b < 0x80) :
    quoteCount p S = literalLength S := by
  have hsums : S.length + (S.map (escapeExtra p)).sum = (S.map fun c =>
      if c ∈ [0x5C, 0x22, 0x08, 0x0C, 0x0A, 0x0D, 0x09] then 2
      else if c < 0x20 then 6 else 1).sum := by
    induction S with
    | nil => rfl
    | cons c S ih =>
        have hrest := ih fun hsigned b hb => hascii hsigned b (List.mem_cons_of_mem c hb)
        have hc : ¬(p.charSigned = true ∧ 128 ≤ c) :=
          fun h => absurd (hascii h.1 c List.mem_cons_self) (UInt8.not_lt.mpr h.2)
        have hlow : (charValue p c < 32) ↔ c < 0x20 := by
          rw [charValue_of_not hc, UInt8.lt_iff_toNat_lt]
          exact Int.ofNat_lt
        have hchar : 1 + escapeExtra p c =
            if c ∈ [0x5C, 0x22, 0x08, 0x0C, 0x0A, 0x0D, 0x09] then 2
            else if c < 0x20 then 6 else 1 := by
          simp only [escapeExtra, hlow, List.mem_cons, List.not_mem_nil, or_false]
          split
          · rfl
          · split <;> rfl
        rw [List.length_cons, List.map_cons, List.sum_cons, List.map_cons, List.sum_cons, ← hchar,
          ← hrest]
        omega
  rw [quoteCount, literalLength, Nat.add_assoc, hsums]

/-- **Quoting.**  The stores of `quote` are in what it allocates, as many as it has counted, and
make a string literal, exactly for a string that is not empty nor too long, without negative
characters. -/
theorem counted_iff (p : Platform) (fresh : Nat → UInt8) (S : List UInt8) :
    Counted p fresh S ↔ S ≠ [] ∧ (p.charSigned = true → ∀ b ∈ S, b < 0x80) ∧
      literalLength S < INT_MAX := by
  have hbody := stringBody_quoted (p := p) S []
  rw [List.append_nil] at hbody
  constructor
  · rintro ⟨count, body, t, -, hbuffer, -, -, hread, -⟩
    rw [quoteBuffer_eq] at hbuffer
    split at hbuffer
    · cases hbuffer
    rename_i hgood
    rw [not_or, Nat.not_le] at hgood
    obtain rfl : body = S.flatMap (escape p) ++ [0x22] := by
      have hsame := List.append_cancel_right (Option.some.inj hbuffer)
      exact (List.cons.inj hsame).2.symm
    have hascii : p.charSigned = true → ∀ b ∈ S, b < 0x80 := by
      intro hsigned b hb
      by_contra hhigh
      have hnone : readBack p S = none := if_pos ⟨hsigned, b, hb, UInt8.not_lt.mp hhigh⟩
      rw [hbody, hnone] at hread
      cases hread
    exact ⟨hgood.1, hascii, quoteCount_eq hascii ▸ hgood.2⟩
  · rintro ⟨hne, hascii, hlength⟩
    rw [← quoteCount_eq hascii] at hlength
    refine ⟨quoteCount p S, S.flatMap (escape p) ++ [0x22], S,
      counted_eq_some.mpr ⟨rfl, Nat.le_of_lt hlength⟩, quoteBuffer_of_count hlength hne,
      quote_length S, ?_, ?_, decodes_self S⟩
    · intro hzero
      rcases List.mem_cons.mp hzero with h | h
      · cases h
      · rcases List.mem_append.mp h with h | h
        · obtain ⟨c, -, hc⟩ := List.mem_flatMap.mp h
          exact escape_ne_zero c 0 hc rfl
        · cases List.mem_singleton.mp h
    · rw [hbody, readBack_of_ascii hascii]
      rfl

/-- The empty string has room for three of the four marks. -/
theorem not_counted_empty : ¬ Counted plainPlatform (fun _ => 0) [] := by
  rintro ⟨count, body, t, -, hbuffer, -⟩
  cases hbuffer

end LuaJson
