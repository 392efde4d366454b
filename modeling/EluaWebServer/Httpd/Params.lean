import EluaWebServer.Lib.CString

/-!
# The parameters of a request

`http_run_elua` takes the parameters of a request apart and puts them into the
Lua table `reqdata`.  This is what it uses of the API of Lua, on tables without
metatables, and the loop over the parameters.
-/

namespace Httpd.Params

open CString

inductive Value where
  | nil
  | string (s : List UInt8)
  | number (n : Nat)
  | table (ref : Nat)
  | other (id : Nat)
  deriving DecidableEq

abbrev Table := Value → Value

/-- A state of Lua.  The top of the stack is first, and the last slot is the one
below the base that belongs to the running function. -/
structure Lua where
  stack : List Value
  heap : Nat → Table
  reqdata : Value
  /-- Something has been removed from the stack that is not there. -/
  underflow : Bool

inductive Fault where
  /-- A Lua error outside of any protected call. -/
  | luaError
  /-- Memory outside of an object is accessed. -/
  | undefined
  deriving DecidableEq

def Lua.push (L : Lua) (v : Value) : Lua := { L with stack := v :: L.stack }

/-- `lua_gettop`. -/
def Lua.gettop (L : Lua) : Int := (L.stack.length : Int) - 1

/-- `lua_pop`, which does not check that there is anything to remove. -/
def Lua.pop (L : Lua) (n : Nat) : Except Fault Lua :=
  if n ≤ L.stack.length then
    .ok { L with
      stack := L.stack.drop n
      underflow := L.underflow || decide (L.gettop < n) }
  else .error .undefined

def setAt (heap : Nat → Table) (ref : Nat) (k v : Value) : Nat → Table :=
  fun r => if r = ref then fun k' => if k' = k then v else heap r k' else heap r

/-- `lua_settable( L, -3 )`. -/
def Lua.settable (L : Lua) : Except Fault Lua :=
  match L.stack with
  | v :: k :: .table ref :: rest =>
      .ok { L with stack := .table ref :: rest, heap := setAt L.heap ref k v }
  | _ :: _ :: _ :: _ => .error .luaError
  | _ => .error .undefined

/-! ## The loop -/

/-- `sizeof( str )`. -/
def STR_SIZE : Nat := 20

/-- `'='`. -/
def equals : UInt8 := 61

/-- `'&'`. -/
def ampersand : UInt8 := 38

/-- `'+'` is a space. -/
def unplus (b : UInt8) : UInt8 := if b = 43 then 32 else b

/-- Where the loop is: how many bytes it has gone over, the first `c` bytes of
`str`, and whether a key is on the stack. -/
structure Scan where
  read : Nat
  str : List UInt8
  pair : Bool
  lua : Lua

/-- The loop, with the bytes of `http_params` from `i` on and the byte that comes
after them. -/
def scan (after : UInt8) : List UInt8 → Scan → Except Fault Scan
  | [], s => .ok s
  | b :: bs, s =>
      if s.str.length < STR_SIZE then
        if b = equals ∧ bs.headD after ≠ 0 then
          scan after bs ⟨s.read + 1, [], true, s.lua.push (.string (text s.str))⟩
        else if b = 0 ∧ s.pair = true then
          (s.lua.push (.string (text s.str))).settable.map fun lua =>
            ⟨s.read + 1, s.str, true, lua⟩
        else if b = ampersand ∧ s.pair = true then
          (s.lua.push (.string (text s.str))).settable.bind fun lua =>
            scan after bs ⟨s.read + 1, [], false, lua⟩
        else scan after bs ⟨s.read + 1, s.str ++ [unplus b], s.pair, s.lua⟩
      else .error .undefined

/-! ## The fields -/

/-- Bytes that the loop copies, when `next` comes after them. -/
def Plain (pair : Bool) (next : UInt8) : List UInt8 → Prop
  | [] => True
  | b :: bs => (b = equals → bs.headD next = 0) ∧ (pair = true → b ≠ 0 ∧ b ≠ ampersand) ∧
      Plain pair next bs

/-- Bytes in which a key begins, the fields that are in them and how many bytes
these take.  Fields are a key, `=` and a value, with `&` in between.  They end with
a zero after a value, or with the array. -/
inductive Fields (after : UInt8) : List UInt8 → List (List UInt8 × List UInt8) → Nat → Prop
  | rest {bs : List UInt8} (hrest : Plain false after bs) (hlen : bs.length ≤ STR_SIZE) :
      Fields after bs [] bs.length
  | last {key val later : List UInt8} (hkey : Plain false equals key)
      (hkeylen : key.length < STR_SIZE) (hne : val ≠ []) (hval : Plain true 0 val)
      (hvallen : val.length < STR_SIZE) :
      Fields after (key ++ equals :: (val ++ 0 :: later)) [(key, val)]
        (key.length + val.length + 2)
  | next {key val later : List UInt8} {fs : List (List UInt8 × List UInt8)} {n : Nat}
      (hkey : Plain false equals key) (hkeylen : key.length < STR_SIZE)
      (hval : Plain true ampersand val) (hvallen : val.length < STR_SIZE)
      (hlater : Fields after later fs n) :
      Fields after (key ++ equals :: (val ++ ampersand :: later)) ((key, val) :: fs)
        (key.length + val.length + 2 + n)

/-- What Lua gets of a key or a value. -/
def fieldText (bs : List UInt8) : List UInt8 := text (bs.map unplus)

/-- The fields are stored in a table. -/
def assign (heap : Nat → Table) (ref : Nat) : List (List UInt8 × List UInt8) → Nat → Table
  | [] => heap
  | f :: fs => assign (setAt heap ref (.string (fieldText f.1)) (.string (fieldText f.2))) ref fs

variable {after : UInt8} {s s' : Scan} {b : UInt8} {bs rest xs : List UInt8} {pair : Bool}
  {next : UInt8}

/-! ## Parts of the loop -/

theorem headD_append (xs rest : List UInt8) :
    (xs ++ rest).headD after = xs.headD (rest.headD after) := by
  cases xs <;> rfl

/-- A byte that is no separator is copied. -/
theorem scan_copy (hequals : b = equals → bs.headD after = 0)
    (hpair : s.pair = true → b ≠ 0 ∧ b ≠ ampersand) (hstr : s.str.length < STR_SIZE) :
    scan after (b :: bs) s =
      scan after bs ⟨s.read + 1, s.str ++ [unplus b], s.pair, s.lua⟩ := by
  have h₁ : ¬ (b = equals ∧ bs.headD after ≠ 0) := fun hb => hb.2 (hequals hb.1)
  have h₂ : ¬ (b = 0 ∧ s.pair = true) := fun hb => (hpair hb.2).1 hb.1
  have h₃ : ¬ (b = ampersand ∧ s.pair = true) := fun hb => (hpair hb.2).2 hb.1
  rw [scan, if_pos hstr, if_neg h₁, if_neg h₂, if_neg h₃]

/-- There is no room for another byte. -/
theorem scan_full (b : UInt8) (bs : List UInt8) (hstr : STR_SIZE ≤ s.str.length) :
    scan after (b :: bs) s = .error .undefined := by
  rw [scan, if_neg (Nat.not_lt.mpr hstr)]

/-- An equals sign that ends a key. -/
theorem scan_equals (hnext : bs.headD after ≠ 0) (hstr : s.str.length < STR_SIZE) :
    scan after (equals :: bs) s =
      scan after bs ⟨s.read + 1, [], true, s.lua.push (.string (text s.str))⟩ := by
  rw [scan, if_pos hstr, if_pos ⟨rfl, hnext⟩]

/-- A zero after a value. -/
theorem scan_zero (hpair : s.pair = true) (hstr : s.str.length < STR_SIZE) :
    scan after (0 :: bs) s = (s.lua.push (.string (text s.str))).settable.map fun lua =>
      ⟨s.read + 1, s.str, true, lua⟩ := by
  rw [scan, if_pos hstr, if_neg (fun h => absurd h.1 (by decide)), if_pos ⟨rfl, hpair⟩]

/-- An ampersand after a value. -/
theorem scan_ampersand (hpair : s.pair = true) (hstr : s.str.length < STR_SIZE) :
    scan after (ampersand :: bs) s =
      (s.lua.push (.string (text s.str))).settable.bind fun lua =>
        scan after bs ⟨s.read + 1, [], false, lua⟩ := by
  rw [scan, if_pos hstr, if_neg (fun h => absurd h.1 (by decide)),
    if_neg (fun h => absurd h.1 (by decide)), if_pos ⟨rfl, hpair⟩]

/-- Bytes that are copied. -/
theorem scan_plain (h : Plain s.pair (rest.headD after) xs)
    (hlen : s.str.length + xs.length ≤ STR_SIZE) :
    scan after (xs ++ rest) s =
      scan after rest ⟨s.read + xs.length, s.str ++ xs.map unplus, s.pair, s.lua⟩ := by
  induction xs generalizing s with
  | nil => rw [List.map_nil, List.append_nil]; rfl
  | cons b xs ih =>
      obtain ⟨hequals, hpair, hplain⟩ := h
      rw [List.length_cons] at hlen
      rw [← headD_append] at hequals
      have hroom : (s.str ++ [unplus b]).length + xs.length ≤ STR_SIZE := by
        rw [List.length_append, List.length_singleton]
        omega
      rw [List.cons_append, scan_copy hequals hpair (by omega),
        ih (s := ⟨s.read + 1, s.str ++ [unplus b], s.pair, s.lua⟩) hplain hroom]
      simp only [List.map_cons, List.length_cons, List.append_assoc, List.singleton_append,
        Nat.add_assoc, Nat.add_comm 1]

/-- More than `sizeof( str )` of them do not fit. -/
theorem scan_plain_long (h : Plain s.pair (rest.headD after) xs)
    (hlen : STR_SIZE < s.str.length + xs.length) (hstr : s.str.length ≤ STR_SIZE) :
    scan after (xs ++ rest) s = .error .undefined := by
  induction xs generalizing s with
  | nil => exact absurd hlen (Nat.not_lt.mpr hstr)
  | cons b xs ih =>
      obtain ⟨hequals, hpair, hplain⟩ := h
      rw [← headD_append] at hequals
      rw [List.cons_append]
      by_cases hfull : s.str.length < STR_SIZE
      · rw [List.length_cons] at hlen
        have hlen' : (s.str ++ [unplus b]).length = s.str.length + 1 := by
          rw [List.length_append, List.length_singleton]
        rw [scan_copy hequals hpair hfull]
        exact ih (s := ⟨s.read + 1, s.str ++ [unplus b], s.pair, s.lua⟩) hplain
          (by rw [hlen']; omega) (by rw [hlen']; exact hfull)
      · exact scan_full b (xs ++ rest) (Nat.not_lt.mp hfull)

/-- Bytes up to the first separator, if there is one. -/
theorem plain_cases (pair : Bool) (after : UInt8) (bs : List UInt8) :
    Plain pair after bs ∨
      ∃ xs sep rest, bs = xs ++ sep :: rest ∧ Plain pair sep xs ∧
        (sep = equals ∧ rest.headD after ≠ 0 ∨
          pair = true ∧ (sep = 0 ∨ sep = ampersand)) := by
  induction bs with
  | nil => exact .inl trivial
  | cons b bs ih =>
      by_cases hequals : b = equals ∧ bs.headD after ≠ 0
      · exact .inr ⟨[], b, bs, rfl, trivial, .inl hequals⟩
      by_cases hpair : pair = true ∧ (b = 0 ∨ b = ampersand)
      · exact .inr ⟨[], b, bs, rfl, trivial, .inr hpair⟩
      have hzero : b = equals → bs.headD after = 0 :=
        fun hb => by_contra fun hne => hequals ⟨hb, hne⟩
      have hother : pair = true → b ≠ 0 ∧ b ≠ ampersand :=
        fun hp => not_or.mp fun hb => hpair ⟨hp, hb⟩
      rcases ih with hplain | ⟨xs, sep, rest, rfl, hplain, hsep⟩
      · exact .inl ⟨hzero, hother, hplain⟩
      · refine .inr ⟨b :: xs, sep, rest, rfl, ⟨?_, hother, hplain⟩, hsep⟩
        rw [headD_append] at hzero
        exact hzero

/-! ## The loop and the fields -/

/-- With two strings on the stack nothing is stored, and the loop goes on to the
end of the array if there is no zero. -/
theorem scan_stuck {k₁ k₂ : List UInt8} {below : List Value} (hpair : s.pair = true)
    (hstack : s.lua.stack = .string k₂ :: .string k₁ :: below)
    (h : scan after bs s = .ok s') :
    s.lua.stack.length ≤ s'.lua.stack.length ∧ s'.read = s.read + bs.length ∧ 0 ∉ bs := by
  induction bs generalizing s k₁ k₂ below with
  | nil =>
      obtain rfl := Except.ok.inj h
      exact ⟨Nat.le_refl _, rfl, List.not_mem_nil⟩
  | cons b bs ih =>
      have hset : ∀ v, (s.lua.push v).settable = .error .luaError := by
        intro v
        rw [Lua.settable, Lua.push]
        simp only [hstack]
      by_cases hstr : s.str.length < STR_SIZE
      · by_cases hequals : b = equals ∧ bs.headD after ≠ 0
        · rw [hequals.1, scan_equals hequals.2 hstr] at h
          have hpush : (s.lua.push (.string (text s.str))).stack =
              .string (text s.str) :: .string k₂ :: .string k₁ :: below := by
            rw [Lua.push, hstack]
          obtain ⟨hlen, hread, hzero⟩ := ih rfl hpush h
          have hne : ¬ (0 = b ∨ 0 ∈ bs) := by
            rw [hequals.1]
            exact not_or.mpr ⟨by decide, hzero⟩
          rw [Lua.push, List.length_cons] at hlen
          rw [List.length_cons, List.mem_cons]
          dsimp only at hread
          exact ⟨by omega, by omega, hne⟩
        by_cases hzero : b = 0
        · rw [hzero, scan_zero hpair hstr, hset] at h
          cases h
        by_cases hamp : b = ampersand
        · rw [hamp, scan_ampersand hpair hstr, hset] at h
          cases h
        have hcopy : b = equals → bs.headD after = 0 :=
          fun hb => by_contra fun hne => hequals ⟨hb, hne⟩
        rw [scan_copy hcopy (fun _ => ⟨hzero, hamp⟩) hstr] at h
        obtain ⟨hlen, hread, hrest⟩ :=
          ih (s := ⟨s.read + 1, s.str ++ [unplus b], s.pair, s.lua⟩) hpair hstack h
        rw [List.length_cons, List.mem_cons]
        dsimp only at hlen hread
        exact ⟨hlen, by omega, not_or.mpr ⟨Ne.symm hzero, hrest⟩⟩
      · rw [scan_full b bs (Nat.not_lt.mp hstr)] at h
        cases h

/-- A key, up to its equals sign. -/
theorem scan_key {key : List UInt8} (hkey : Plain false equals key)
    (hkeylen : key.length < STR_SIZE) (hnext : rest.headD after ≠ 0) (hstr : s.str = [])
    (hpair : s.pair = false) :
    scan after (key ++ equals :: rest) s =
      scan after rest ⟨s.read + (key.length + 1), [], true,
        s.lua.push (.string (fieldText key))⟩ := by
  have hplain : Plain s.pair ((equals :: rest).headD after) key := by rw [hpair]; exact hkey
  have hlen : s.str.length + key.length ≤ STR_SIZE := by
    rw [hstr, List.length_nil]
    omega
  have hshort : (s.str ++ key.map unplus).length < STR_SIZE := by
    rw [hstr, List.nil_append, List.length_map]
    exact hkeylen
  rw [scan_plain hplain hlen, scan_equals hnext hshort, hstr, List.nil_append, Nat.add_assoc]
  rfl

/-- A value, up to what ends it. -/
theorem scan_val {val : List UInt8} {sep : UInt8} {read : Nat} {lua : Lua}
    (hval : Plain true sep val) (hvallen : val.length < STR_SIZE) :
    scan after (val ++ sep :: rest) ⟨read, [], true, lua⟩ =
      scan after (sep :: rest) ⟨read + val.length, val.map unplus, true, lua⟩ := by
  have hlen : ([] : List UInt8).length + val.length ≤ STR_SIZE := by
    rw [List.length_nil]
    omega
  rw [@scan_plain after ⟨read, [], true, lua⟩ (sep :: rest) val hval hlen, List.nil_append]

theorem length_unplus_lt {val : List UInt8} (h : val.length < STR_SIZE) :
    (val.map unplus).length < STR_SIZE := by
  rw [List.length_map]
  exact h

/-- A state with a field stored. -/
def Lua.store (lua : Lua) (ref : Nat) (key val : List UInt8) : Lua :=
  { lua with heap := setAt lua.heap ref (.string (fieldText key)) (.string (fieldText val)) }

theorem text_unplus (bs : List UInt8) : text (bs.map unplus) = fieldText bs := rfl

/-- A key and a value are stored. -/
theorem settable_field {lua : Lua} {ref : Nat} {below : List Value}
    (hstack : lua.stack = .table ref :: below) (key val : List UInt8) :
    ((lua.push (.string (fieldText key))).push (.string (fieldText val))).settable =
      .ok (lua.store ref key val) := by
  rw [Lua.settable, Lua.push, Lua.push, Lua.store]
  simp only [hstack]

theorem headD_val_ne_zero {val : List UInt8} {sep : UInt8} (hval : Plain true sep val)
    (hsep : sep ≠ 0 ∨ val ≠ []) (later : List UInt8) :
    (val ++ sep :: later).headD after ≠ 0 := by
  cases val with
  | nil => exact hsep.resolve_right fun h => h rfl
  | cons v val => exact (hval.2.1 rfl).1

/-- **The loop stores the fields.** -/
theorem scan_fields {fs : List (List UInt8 × List UInt8)} {n : Nat} (h : Fields after bs fs n)
    {read : Nat} {lua : Lua} {ref : Nat} {below : List Value}
    (hstack : lua.stack = .table ref :: below) :
    ∃ str pair, scan after bs ⟨read, [], false, lua⟩ =
      .ok ⟨read + n, str, pair, { lua with heap := assign lua.heap ref fs }⟩ := by
  induction h generalizing read lua with
  | @rest bs hrest hlen =>
      have hroom : ([] : List UInt8).length + bs.length ≤ STR_SIZE := by
        rw [List.length_nil, Nat.zero_add]
        exact hlen
      have hscan := @scan_plain after ⟨read, [], false, lua⟩ [] bs hrest hroom
      rw [List.append_nil] at hscan
      exact ⟨_, _, hscan⟩
  | @last key val later hkey hkeylen hne hval hvallen =>
      refine ⟨val.map unplus, true, ?_⟩
      rw [scan_key hkey hkeylen (headD_val_ne_zero hval (.inr hne) later) rfl rfl,
        scan_val hval hvallen, scan_zero rfl (length_unplus_lt hvallen)]
      dsimp only
      rw [text_unplus, settable_field hstack key val]
      have hread : read + (key.length + 1) + val.length + 1 = read + (key.length + val.length + 2) := by
        omega
      rw [← hread]
      rfl
  | @next key val later fs n hkey hkeylen hval hvallen hlater ih =>
      have hnext : (ampersand : UInt8) ≠ 0 ∨ val ≠ [] := .inl (by decide)
      have hstored : (lua.store ref key val).stack = .table ref :: below := hstack
      obtain ⟨str, pair, hscan⟩ := @ih (read + (key.length + 1) + val.length + 1) _ hstored
      refine ⟨str, pair, ?_⟩
      rw [scan_key hkey hkeylen (headD_val_ne_zero hval hnext later) rfl rfl,
        scan_val hval hvallen, scan_ampersand rfl (length_unplus_lt hvallen)]
      dsimp only
      rw [text_unplus, settable_field hstack key val]
      have hread : read + (key.length + 1) + val.length + 1 + n =
          read + (key.length + val.length + 2 + n) := by
        omega
      rw [← hread]
      exact hscan

/-- A key or a value that is too long. -/
theorem scan_long {sep : UInt8} (h : Plain s.pair sep xs) (hstr : s.str = [])
    (hlen : STR_SIZE ≤ xs.length) : scan after (xs ++ sep :: rest) s = .error .undefined := by
  have hplain : Plain s.pair ((sep :: rest).headD after) xs := h
  have hzero : s.str.length = 0 := congrArg List.length hstr
  rcases Nat.lt_or_eq_of_le hlen with hmore | hsame
  · exact scan_plain_long hplain (by omega) (by omega)
  · rw [scan_plain hplain (by omega)]
    apply scan_full
    rw [hstr, List.nil_append, List.length_map]
    exact hlen

theorem Plain.zero_not_mem (h : Plain true next xs) : 0 ∉ xs := by
  induction xs with
  | nil => exact List.not_mem_nil
  | cons b xs ih =>
      rw [List.mem_cons]
      exact not_or.mpr ⟨fun hb => (h.2.1 rfl).1 hb.symm, ih h.2.2⟩

/-- The last byte is not a zero if there is none behind an equals sign. -/
theorem getLast_ne_zero (h : 0 ∉ bs) : (xs ++ equals :: bs).getLast? ≠ some 0 := by
  intro hlast
  have hmem := List.mem_of_getLast? hlast
  rw [List.getLast?_append, List.getLast?_eq_some_getLast (List.cons_ne_nil _ _), Option.some_or,
    Option.some.injEq] at hlast
  rcases List.mem_cons.mp (hlast ▸ List.getLast_mem (List.cons_ne_nil equals bs)) with hzero | hzero
  · exact absurd hzero (by decide)
  · exact h hzero

/-- **What the loop can store.**  If it comes to an end, there are fields, or
it leaves something on the stack and has gone over the whole array, which does not
end with a zero. -/
theorem fields_of_scan {read : Nat} {lua : Lua} {ref : Nat} {below : List Value}
    (hstack : lua.stack = .table ref :: below)
    (h : scan after bs ⟨read, [], false, lua⟩ = .ok s') :
    (∃ fs n, Fields after bs fs n) ∨
      (lua.stack.length < s'.lua.stack.length ∧ s'.read = read + bs.length ∧
        bs.getLast? ≠ some 0) := by
  induction hn : bs.length using Nat.strong_induction_on generalizing bs read lua with
  | _ n ih =>
      subst hn
      rcases plain_cases false after bs with hplain | ⟨key, sep, rest, rfl, hkey, hsep⟩
      · by_cases hlen : bs.length ≤ STR_SIZE
        · exact .inl ⟨_, _, .rest hplain hlen⟩
        · have hlong := @scan_plain_long after ⟨read, [], false, lua⟩ [] bs hplain
            (by rw [List.length_nil]; omega) (Nat.zero_le _)
          rw [List.append_nil, h] at hlong
          cases hlong
      -- the separator is an equals sign, since there is no key yet
      obtain ⟨rfl, hnext⟩ := hsep.resolve_right fun hpair => absurd hpair.1 (by decide)
      by_cases hkeylen : key.length < STR_SIZE
      swap
      · rw [scan_long hkey rfl (Nat.not_lt.mp hkeylen)] at h
        cases h
      rw [scan_key hkey hkeylen hnext rfl rfl] at h
      dsimp only at h
      have hpush : (lua.push (.string (fieldText key))).stack =
          .string (fieldText key) :: .table ref :: below := by
        rw [Lua.push, hstack]
      rcases plain_cases true after rest with hplain | ⟨val, sep, later, rfl, hval, hsep⟩
      · by_cases hlen : rest.length ≤ STR_SIZE
        · have hend := @scan_plain after
            ⟨read + (key.length + 1), [], true, lua.push (.string (fieldText key))⟩ [] rest hplain
            (by rw [List.length_nil]; omega)
          rw [List.append_nil, h, scan, Except.ok.injEq] at hend
          subst hend
          refine .inr ⟨Nat.lt_succ_self _, ?_, getLast_ne_zero hplain.zero_not_mem⟩
          rw [List.length_append, List.length_cons]
          dsimp only
          omega
        · have hlong := @scan_plain_long after
            ⟨read + (key.length + 1), [], true, lua.push (.string (fieldText key))⟩ [] rest hplain
            (by rw [List.length_nil]; omega) (Nat.zero_le _)
          rw [List.append_nil, h] at hlong
          cases hlong
      by_cases hvallen : val.length < STR_SIZE
      swap
      · rw [scan_long hval rfl (Nat.not_lt.mp hvallen)] at h
        cases h
      rw [scan_val hval hvallen] at h
      rcases hsep with ⟨rfl, hlive⟩ | ⟨-, rfl | rfl⟩
      · rw [scan_equals hlive (length_unplus_lt hvallen)] at h
        dsimp only at h
        have htwo : ((lua.push (.string (fieldText key))).push
            (.string (text (val.map unplus)))).stack =
              .string (text (val.map unplus)) :: .string (fieldText key) :: .table ref :: below := by
          rw [Lua.push, hpush]
        obtain ⟨hlen, hread, hzero⟩ := scan_stuck rfl htwo h
        refine .inr ⟨?_, ?_, ?_⟩
        · rw [htwo] at hlen
          rw [hstack]
          exact Nat.lt_of_lt_of_le (Nat.lt_succ_of_le (Nat.le_succ _)) hlen
        · rw [List.length_append, List.length_cons, List.length_append, List.length_cons]
          dsimp only at hread
          omega
        · rw [← List.cons_append, ← List.append_assoc]
          exact getLast_ne_zero hzero
      · have hne : val ≠ [] := by
          rintro rfl
          exact hnext rfl
        exact .inl ⟨_, _, .last hkey hkeylen hne hval hvallen⟩
      · rw [scan_ampersand rfl (length_unplus_lt hvallen)] at h
        dsimp only at h
        rw [text_unplus, settable_field hstack key val] at h
        have hshort : later.length < (key ++ equals :: (val ++ ampersand :: later)).length := by
          rw [List.length_append, List.length_cons, List.length_append, List.length_cons]
          omega
        have hstored : (lua.store ref key val).stack = .table ref :: below := hstack
        rcases ih later.length hshort hstored h rfl with ⟨fs, n, hfields⟩ | ⟨hlen, hread, hlast⟩
        · exact .inl ⟨_, _, .next hkey hkeylen hval hvallen hfields⟩
        · refine .inr ⟨hlen, ?_, ?_⟩
          · rw [List.length_append, List.length_cons, List.length_append, List.length_cons]
            omega
          · intro hzero
            rw [List.getLast?_append, List.getLast?_cons, List.getLast?_append, List.getLast?_cons]
              at hzero
            cases hl : later.getLast? with
            | none =>
                rw [hl] at hzero
                exact absurd (Option.some.inj hzero) (by decide : ampersand ≠ 0)
            | some b =>
                rw [hl] at hzero hlast
                exact hlast hzero

end Httpd.Params
