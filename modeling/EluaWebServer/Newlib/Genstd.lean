import EluaWebServer.Lib.Transition
import Mathlib.Data.List.Basic

/-!
# The line discipline of the generic console

`std_read` echoes and edits what is typed.  Behind the end of a line it looks at the next
character, which it keeps for the next call if it does not belong to the end of the line.  It
is compared with a discipline that puts this character back into the input.
-/

namespace Genstd

def STD_CTRLZ_CODE : UInt8 := 26

def DM_STDIN_NUM : Int := 0
def DM_STDERR_NUM : Int := 2

/-- `isprint`. -/
def isprint (c : UInt8) : Bool := decide (32 ≤ c ∧ c ≤ 126)

/-- The characters that are typed, each with whether it comes later than
`STD_INTER_CHAR_TIMEOUT` behind the one before it. -/
abbrev Input := List (UInt8 × Bool)

/-- `std_get_char_func( STD_INTER_CHAR_TIMEOUT )`: -1 if there is nothing in time. -/
def getInterChar : Input → Int × Input
  | (c, false) :: rest => (c.toNat, rest)
  | input => (-1, input)

/-! ## The call -/

/-- What a call has returned, the characters it has stored and echoed, `std_prev_char`, and
the characters still to come. -/
structure Outcome where
  ret : Nat
  stored : List UInt8
  echo : List UInt8
  prevChar : Int
  input : Input
  deriving DecidableEq

def Outcome.echoing (o : Outcome) (chars : List UInt8) : Outcome :=
  { o with echo := chars ++ o.echo }

/-- The loop of `std_read`, when there is no character from the call before. -/
def readLoop (len : Nat) : List UInt8 → Input → Outcome
  | stored, [] => ⟨len, stored, [], -1, []⟩
  | stored, (c, late) :: rest =>
      if len ≤ stored.length then ⟨len, stored, [], -1, (c, late) :: rest⟩
      else if c = 8 ∨ c = 0x7F then
        if 0 < stored.length then (readLoop len stored.dropLast rest).echoing [8, 32, 8]
        else readLoop len stored rest
      else if isprint c = false ∧ c ≠ 10 ∧ c ≠ 13 ∧ c ≠ STD_CTRLZ_CODE then
        readLoop len stored rest
      else if c = STD_CTRLZ_CODE then ⟨0, stored, [], -1, rest⟩
      else if c = 13 ∨ c = 10 then
        let (prev, rest) := getInterChar rest
        ⟨stored.length + 1, stored ++ [10], [c, 13 + 10 - c],
          if prev + c.toNat = 13 + 10 then -1 else prev, rest⟩
      else (readLoop len (stored ++ [c]) rest).echoing [c]

inductive Errno where
  | EBADF
  | EINVAL
  deriving DecidableEq

/-- `std_read`. -/
def stdRead (funcs : Bool) (fd : Int) (prevChar : Int) (input : Input) (len : Nat) :
    Except Errno Outcome :=
  if !funcs then .error .EBADF
  else if fd < DM_STDIN_NUM ∨ DM_STDERR_NUM < fd then .error .EBADF
  else if fd ≠ DM_STDIN_NUM then .error .EINVAL
  else if len = 0 then .ok ⟨0, [], [], prevChar, input⟩
  else if prevChar ≠ -1 then .ok (readLoop len [UInt8.ofNat prevChar.toNat] input)
  else .ok (readLoop len [] input)

/-! ## The discipline -/

inductive Key where
  | erase
  | ignored
  | eof
  | lineEnd
  | char
  deriving DecidableEq

def keyOf (c : UInt8) : Key :=
  if c = 8 ∨ c = 0x7F then .erase
  else if c = STD_CTRLZ_CODE then .eof
  else if c = 13 ∨ c = 10 then .lineEnd
  else if isprint c then .char
  else .ignored

/-- The other half of the end of a line. -/
def partner (c : UInt8) : UInt8 := if c = 13 then 10 else 13

/-- What follows the end of a line, without the other half. -/
def behindLineEnd (c : UInt8) : Input → Input
  | (d, late) :: rest => if late = false ∧ d = partner c then rest else (d, late) :: rest
  | [] => []

/-- What is delivered and echoed, and the characters still to come. -/
structure Edited where
  line : List UInt8
  echo : List UInt8
  input : Input
  deriving DecidableEq

def Edited.echoing (e : Edited) (chars : List UInt8) : Edited :=
  { e with echo := chars ++ e.echo }

/-- At most `len` characters and one line of the input, edited. -/
def edited (len : Nat) : List UInt8 → Input → Edited
  | kept, [] => ⟨kept, [], []⟩
  | kept, (c, late) :: rest =>
      if len ≤ kept.length then ⟨kept, [], (c, late) :: rest⟩
      else
        match keyOf c with
        | .erase =>
            if kept = [] then edited len kept rest
            else (edited len kept.dropLast rest).echoing [8, 32, 8]
        | .ignored => edited len kept rest
        | .eof => ⟨kept, [], rest⟩
        | .lineEnd => ⟨kept ++ [10], [c, partner c], behindLineEnd c rest⟩
        | .char => (edited len (kept ++ [c]) rest).echoing [c]

/-! ## Runs of calls -/

/-- A call that has returned, next to what it is meant to do. -/
structure Finished where
  outcome : Outcome
  edited : Edited

/-- The console, the input as the discipline sees it, and the calls so far. -/
structure Console where
  prevChar : Int
  input : Input
  left : Input
  calls : List Finished

/-- One call with room for `len` characters. -/
def step (s : Console) (len : Nat) : Option Console :=
  if len = 0 then none
  else
    match stdRead true DM_STDIN_NUM s.prevChar s.input len with
    | .error _ => none
    | .ok o =>
        some
          { prevChar := o.prevChar
            input := o.input
            left := (edited len [] s.left).input
            calls := s.calls ++ [⟨o, edited len [] s.left⟩] }

def Console.start (input : Input) : Console := ⟨-1, input, input, []⟩

/-- Characters that can be printed, and perhaps the end of a line. -/
def IsLine (line : List UInt8) : Prop :=
  ∃ front, (∀ c ∈ front, isprint c = true) ∧ (line = front ∨ line = front ++ [10])

/-- The call returns how much it has stored, which is at most one line, and has stored and
echoed what the discipline says. -/
structure Finished.Right (f : Finished) : Prop where
  counted : f.outcome.ret = f.outcome.stored.length
  line : IsLine f.outcome.stored
  stored : f.outcome.stored = f.edited.line
  echo : f.outcome.echo = f.edited.echo

def Disciplined (s : Console) : Prop := ∀ f ∈ s.calls, f.Right

/-- The call comes to its end before the input does, and no end of the file is behind
characters that the call has kept. -/
def Completes (len : Nat) : List UInt8 → Input → Prop
  | kept, [] => kept.length = len
  | kept, (c, _) :: rest =>
      if len ≤ kept.length then True
      else
        match keyOf c with
        | .erase => Completes len kept.dropLast rest
        | .ignored => Completes len kept rest
        | .eof => kept = []
        | .lineEnd => True
        | .char => Completes len (kept ++ [c]) rest

/-- No character has been read ahead, and the call completes. -/
def Ok (s : Console) (len : Nat) : Prop :=
  len ≠ 0 → s.prevChar = -1 ∧ Completes len [] s.input

/-! ## One character -/

section

variable {len : Nat} {stored kept : List UInt8} {c : UInt8} {late : Bool} {rest input : Input}

theorem keyOf_erase (h : keyOf c = .erase) : c = 8 ∨ c = 0x7F := by
  unfold keyOf at h
  split_ifs at h
  assumption

theorem keyOf_eof (h : keyOf c = .eof) : c = STD_CTRLZ_CODE := by
  unfold keyOf at h
  split_ifs at h
  assumption

theorem keyOf_lineEnd (h : keyOf c = .lineEnd) : c = 13 ∨ c = 10 := by
  unfold keyOf at h
  split_ifs at h
  assumption

theorem keyOf_char (h : keyOf c = .char) :
    isprint c = true ∧ ¬(c = 8 ∨ c = 0x7F) ∧ c ≠ STD_CTRLZ_CODE ∧ ¬(c = 13 ∨ c = 10) := by
  unfold keyOf at h
  split_ifs at h with h1 h2 h3 h4
  exact ⟨h4, h1, h2, h3⟩

theorem keyOf_ignored (h : keyOf c = .ignored) :
    isprint c = false ∧ ¬(c = 8 ∨ c = 0x7F) ∧ c ≠ STD_CTRLZ_CODE ∧ ¬(c = 13 ∨ c = 10) := by
  unfold keyOf at h
  split_ifs at h with h1 h2 h3 h4
  exact ⟨by simpa using h4, h1, h2, h3⟩

theorem readLoop_full (h : len ≤ stored.length) :
    readLoop len stored input = ⟨len, stored, [], -1, input⟩ := by
  cases input with
  | nil => rfl
  | cons x rest => rw [readLoop, if_pos h]

theorem readLoop_erase (hroom : stored.length < len) (h : keyOf c = .erase) :
    readLoop len stored ((c, late) :: rest) =
      if stored = [] then readLoop len stored rest
      else (readLoop len stored.dropLast rest).echoing [8, 32, 8] := by
  rw [readLoop, if_neg (Nat.not_le.mpr hroom), if_pos (keyOf_erase h)]
  cases stored with
  | nil => rfl
  | cons x xs => rw [if_pos (List.length_pos_of_ne_nil (List.cons_ne_nil x xs)),
      if_neg (List.cons_ne_nil x xs)]

theorem readLoop_ignored (hroom : stored.length < len) (h : keyOf c = .ignored) :
    readLoop len stored ((c, late) :: rest) = readLoop len stored rest := by
  obtain ⟨hprint, herase, heof, hend⟩ := keyOf_ignored h
  rw [readLoop, if_neg (Nat.not_le.mpr hroom), if_neg herase, if_pos]
  exact ⟨hprint, fun h => hend (.inr h), fun h => hend (.inl h), heof⟩

theorem readLoop_eof (hroom : stored.length < len) (h : keyOf c = .eof) :
    readLoop len stored ((c, late) :: rest) = ⟨0, stored, [], -1, rest⟩ := by
  obtain rfl := keyOf_eof h
  rw [readLoop, if_neg (Nat.not_le.mpr hroom)]
  rfl

/-- The end of a line, with what has been read ahead. -/
theorem readLoop_lineEnd (hroom : stored.length < len) (h : keyOf c = .lineEnd) :
    readLoop len stored ((c, late) :: rest) =
      ⟨stored.length + 1, stored ++ [10], [c, 13 + 10 - c],
        if (getInterChar rest).1 + c.toNat = 13 + 10 then -1 else (getInterChar rest).1,
        (getInterChar rest).2⟩ := by
  rw [readLoop, if_neg (Nat.not_le.mpr hroom)]
  rcases keyOf_lineEnd h with rfl | rfl
  · rfl
  · rfl

theorem readLoop_char (hroom : stored.length < len) (h : keyOf c = .char) :
    readLoop len stored ((c, late) :: rest) = (readLoop len (stored ++ [c]) rest).echoing [c] := by
  obtain ⟨hprint, herase, heof, hend⟩ := keyOf_char h
  rw [readLoop, if_neg (Nat.not_le.mpr hroom), if_neg herase, if_neg, if_neg heof, if_neg hend]
  rw [hprint]
  exact fun h => Bool.noConfusion h.1

/-- The input with the character that has been read ahead. -/
def unread (prevChar : Int) (input : Input) : Input :=
  if prevChar = -1 then input else (UInt8.ofNat prevChar.toNat, false) :: input

theorem unread_getInterChar (h : keyOf c = .lineEnd) :
    unread (if (getInterChar rest).1 + c.toNat = 13 + 10 then -1 else (getInterChar rest).1)
      (getInterChar rest).2 = behindLineEnd c rest := by
  have hc := keyOf_lineEnd h
  cases rest with
  | nil =>
      change unread (if (-1 : Int) + c.toNat = 13 + 10 then -1 else -1) [] = []
      rw [ite_self]
      rfl
  | cons x rest =>
      obtain ⟨d, late⟩ := x
      cases late with
      | true =>
          change unread (if (-1 : Int) + c.toNat = 13 + 10 then -1 else -1) ((d, true) :: rest) = _
          have hlate : ¬(true = false ∧ d = partner c) := fun h => Bool.noConfusion h.1
          rw [ite_self, behindLineEnd, if_neg hlate]
          rfl
      | false =>
          have hpartner : (d.toNat : Int) + c.toNat = 13 + 10 ↔ d = partner c := by
            rw [← UInt8.toNat_inj]
            rcases hc with rfl | rfl
            · change (d.toNat : Int) + 13 = 13 + 10 ↔ d.toNat = 10
              omega
            · change (d.toNat : Int) + 10 = 13 + 10 ↔ d.toNat = 13
              omega
          change unread (if (d.toNat : Int) + c.toNat = 13 + 10 then -1 else d.toNat) rest =
            if false = false ∧ d = partner c then rest else (d, false) :: rest
          by_cases hd : d = partner c
          · rw [if_pos (hpartner.mpr hd), if_pos ⟨rfl, hd⟩]
            rfl
          · have hread : ¬(d.toNat : Int) = -1 := by omega
            rw [if_neg fun h => hd (hpartner.mp h), if_neg fun h => hd h.2, unread, if_neg hread,
              Int.toNat_natCast, UInt8.ofNat_toNat]

theorem edited_full (h : len ≤ kept.length) : edited len kept input = ⟨kept, [], input⟩ := by
  cases input with
  | nil => rfl
  | cons x rest => rw [edited, if_pos h]

theorem edited_cons (hroom : kept.length < len) :
    edited len kept ((c, late) :: rest) =
      match keyOf c with
      | .erase =>
          if kept = [] then edited len kept rest
          else (edited len kept.dropLast rest).echoing [8, 32, 8]
      | .ignored => edited len kept rest
      | .eof => ⟨kept, [], rest⟩
      | .lineEnd => ⟨kept ++ [10], [c, partner c], behindLineEnd c rest⟩
      | .char => (edited len (kept ++ [c]) rest).echoing [c] := by
  rw [edited, if_neg (Nat.not_le.mpr hroom)]

/-- What the call does is what the discipline says, and it returns how much it has stored if
it completes. -/
structure Agrees (len : Nat) (kept : List UInt8) (input : Input) (o : Outcome) (e : Edited) :
    Prop where
  stored : o.stored = e.line
  echo : o.echo = e.echo
  left : unread o.prevChar o.input = e.input
  counted : o.ret = o.stored.length ↔ Completes len kept input

/-- **No character read ahead.** -/
theorem agrees_readLoop (hroom : stored.length ≤ len) :
    Agrees len stored input (readLoop len stored input) (edited len stored input) := by
  induction input generalizing stored with
  | nil => exact ⟨rfl, rfl, rfl, eq_comm⟩
  | cons x rest ih =>
      obtain ⟨c, late⟩ := x
      rcases Nat.lt_or_ge stored.length len with hlt | hge
      · rw [edited_cons hlt]
        have hcompletes : Completes len stored ((c, late) :: rest) ↔
            match keyOf c with
            | .erase => Completes len stored.dropLast rest
            | .ignored => Completes len stored rest
            | .eof => stored = []
            | .lineEnd => True
            | .char => Completes len (stored ++ [c]) rest := by
          rw [Completes, if_neg (Nat.not_le.mpr hlt)]
        have hdrop : stored.dropLast.length ≤ len := by
          rw [List.length_dropLast]
          omega
        cases hkey : keyOf c with
        | erase =>
            rw [hkey] at hcompletes
            rw [readLoop_erase hlt hkey]
            by_cases hnil : stored = []
            · subst hnil
              obtain ⟨hs, he, hi, hc⟩ := ih hroom
              rw [if_pos rfl, if_pos rfl]
              exact ⟨hs, he, hi, hc.trans hcompletes.symm⟩
            · obtain ⟨hs, he, hi, hc⟩ := ih hdrop
              rw [if_neg hnil, if_neg hnil]
              exact ⟨hs, congrArg ([8, 32, 8] ++ ·) he, hi, hc.trans hcompletes.symm⟩
        | ignored =>
            rw [hkey] at hcompletes
            rw [readLoop_ignored hlt hkey]
            obtain ⟨hs, he, hi, hc⟩ := ih hroom
            exact ⟨hs, he, hi, hc.trans hcompletes.symm⟩
        | eof =>
            rw [hkey] at hcompletes
            rw [readLoop_eof hlt hkey]
            refine ⟨rfl, rfl, rfl, ?_⟩
            rw [hcompletes]
            exact eq_comm.trans List.length_eq_zero_iff
        | lineEnd =>
            rw [hkey] at hcompletes
            have hpartner : 13 + 10 - c = partner c := by
              rcases keyOf_lineEnd hkey with rfl | rfl
              · rfl
              · rfl
            rw [readLoop_lineEnd hlt hkey, hpartner]
            refine ⟨rfl, rfl, unread_getInterChar hkey, iff_of_true ?_ (hcompletes.mpr trivial)⟩
            exact (@List.length_append _ stored [10]).symm
        | char =>
            rw [hkey] at hcompletes
            rw [readLoop_char hlt hkey]
            have hroom' : (stored ++ [c]).length ≤ len := by
              rw [List.length_append]
              exact hlt
            obtain ⟨hs, he, hi, hc⟩ := ih hroom'
            exact ⟨hs, congrArg ([c] ++ ·) he, hi, hc.trans hcompletes.symm⟩
      · rw [readLoop_full hge, edited_full hge]
        refine ⟨rfl, rfl, rfl, iff_of_true (by dsimp only; omega) ?_⟩
        rw [Completes, if_pos hge]
        trivial

/-- What is delivered is a line. -/
theorem isLine_edited (hkept : ∀ c ∈ kept, isprint c = true) (input : Input) :
    IsLine (edited len kept input).line := by
  induction input generalizing kept with
  | nil => exact ⟨kept, hkept, .inl rfl⟩
  | cons x rest ih =>
      obtain ⟨c, late⟩ := x
      rcases Nat.lt_or_ge kept.length len with hlt | hge
      · rw [edited_cons hlt]
        cases hkey : keyOf c with
        | erase =>
            dsimp only
            split
            next => exact ih hkept
            next => exact ih fun c hc => hkept c (List.dropLast_subset _ hc)
        | ignored => exact ih hkept
        | eof => exact ⟨kept, hkept, .inl rfl⟩
        | lineEnd => exact ⟨kept, hkept, .inr rfl⟩
        | char =>
            apply ih
            intro d hd
            rcases List.mem_append.mp hd with hd | hd
            · exact hkept d hd
            · rw [List.mem_singleton.mp hd]
              exact (keyOf_char hkey).1
      · rw [edited_full hge]
        exact ⟨kept, hkept, .inl rfl⟩

/-! ## A character that has been read ahead -/

theorem length_echoing (o : Outcome) (chars : List UInt8) :
    (o.echoing chars).echo.length = chars.length + o.echo.length := List.length_append

theorem length_echoing_edited (e : Edited) (chars : List UInt8) :
    (e.echoing chars).echo.length = chars.length + e.echo.length := List.length_append

/-- A character that is stored as it is stays in front, or it is erased and that is echoed,
which the discipline without it does not. -/
theorem readLoop_raw (x : UInt8) (hroom : kept.length < len) (input : Input) :
    (x ∈ (readLoop len (x :: kept) input).stored ∧
        ((readLoop len (x :: kept) input).ret = (readLoop len (x :: kept) input).stored.length →
          (readLoop len (x :: kept) input).stored.length = len ∨
            2 ≤ (readLoop len (x :: kept) input).stored.length)) ∨
      (readLoop len (x :: kept) input).echo.length =
        (edited len kept input).echo.length + 3 := by
  induction input generalizing kept with
  | nil =>
      left
      refine ⟨List.mem_cons_self, ?_⟩
      intro h
      exact .inl h.symm
  | cons y rest ih =>
      obtain ⟨c, late⟩ := y
      rw [edited_cons hroom]
      rcases Nat.lt_or_ge (x :: kept).length len with hlt | hge
      · cases hkey : keyOf c with
        | erase =>
            rw [readLoop_erase hlt hkey, if_neg (List.cons_ne_nil x kept)]
            cases kept with
            | nil =>
                -- The character itself is erased.
                right
                have hagrees := @agrees_readLoop len [] rest (Nat.zero_le _)
                dsimp only
                rw [if_pos rfl, ← hagrees.echo, length_echoing, Nat.add_comm]
                rfl
            | cons k kept =>
                have hroom' : (k :: kept).dropLast.length < len := by
                  rw [List.length_dropLast]
                  omega
                dsimp only
                rw [if_neg (List.cons_ne_nil k kept), length_echoing, length_echoing_edited]
                rcases ih hroom' with hraw | herased
                · exact .inl hraw
                · right
                  exact (congrArg ([8, 32, 8].length + ·) herased).trans (Nat.add_assoc _ _ _).symm
        | ignored =>
            rw [readLoop_ignored hlt hkey]
            exact ih hroom
        | eof =>
            left
            rw [readLoop_eof hlt hkey]
            refine ⟨List.mem_cons_self, ?_⟩
            intro h
            cases h
        | lineEnd =>
            left
            rw [readLoop_lineEnd hlt hkey]
            refine ⟨List.mem_cons_self, ?_⟩
            intro _
            right
            simp
        | char =>
            rw [readLoop_char hlt hkey]
            have hroom' : (kept ++ [c]).length < len := by
              rw [List.length_append]
              exact hlt
            rw [length_echoing, length_echoing_edited]
            rcases ih hroom' with hraw | herased
            · exact .inl hraw
            · right
              exact (congrArg ([c].length + ·) herased).trans (Nat.add_assoc _ _ _).symm
      · left
        rw [readLoop_full hge]
        refine ⟨List.mem_cons_self, ?_⟩
        intro h
        exact .inl h.symm

theorem not_mem_edited {x : UInt8} (hprint : isprint x = false) (h10 : x ≠ 10) (input : Input) :
    x ∉ (edited len [] input).line := by
  obtain ⟨front, hfront, hline⟩ := @isLine_edited len [] nofun input
  have hx : x ∉ front := by
    intro hmem
    rw [hfront x hmem] at hprint
    cases hprint
  rcases hline with hline | hline
  · rwa [hline]
  · rw [hline, List.mem_append, List.mem_singleton]
    exact not_or.mpr ⟨hx, h10⟩

/-- What is not erased and not echoed cannot be what the discipline says. -/
theorem readLoop_raw_ne {x : UInt8} (hlen : len ≠ 0) (input : Input) :
    ¬((readLoop len [x] input).ret = (readLoop len [x] input).stored.length ∧
      (readLoop len [x] input).stored = (edited len [] ((x, false) :: input)).line ∧
      (readLoop len [x] input).echo = (edited len [] ((x, false) :: input)).echo) := by
  intro hright
  obtain ⟨hcounted, hstored, hecho⟩ := hright
  have hroom : ([] : List UInt8).length < len := Nat.pos_of_ne_zero hlen
  have hraw := @readLoop_raw len [] x hroom input
  have hsame : isprint x = false → x ≠ 10 →
      ¬((readLoop len [x] input).stored = (edited len [] input).line ∧
        (readLoop len [x] input).echo = (edited len [] input).echo) := by
    intro hprint h10 hboth
    rcases hraw with hraw | herased
    · rw [hboth.1] at hraw
      exact not_mem_edited hprint h10 input hraw.1
    · rw [hboth.2] at herased
      omega
  rw [edited_cons hroom] at hstored hecho
  cases hkey : keyOf x with
  | erase =>
      rw [hkey] at hstored hecho
      dsimp only at hstored hecho
      rw [if_pos rfl] at hstored hecho
      have hx : isprint x = false ∧ x ≠ 10 := by
        rcases keyOf_erase hkey with rfl | rfl
        · exact ⟨rfl, by decide⟩
        · exact ⟨rfl, by decide⟩
      exact hsame hx.1 hx.2 ⟨hstored, hecho⟩
  | ignored =>
      rw [hkey] at hstored hecho
      obtain ⟨hprint, -, -, hend⟩ := keyOf_ignored hkey
      exact hsame hprint (fun h => hend (.inr h)) ⟨hstored, hecho⟩
  | eof =>
      rw [hkey] at hstored hecho
      rcases hraw with hraw | herased
      · rw [hstored] at hraw
        cases hraw.1
      · rw [hecho] at herased
        simp at herased
  | lineEnd =>
      rw [hkey] at hstored hecho
      rcases hraw with hraw | herased
      · have hlength : (readLoop len [x] input).stored.length = 1 := by
          rw [hstored]
          rfl
        rcases hraw.2 hcounted with hfull | hlong
        · -- The buffer is full at once, and nothing is echoed.
          rw [readLoop_full (by rw [← hfull, hlength]; exact Nat.le_refl 1)] at hecho
          cases hecho
        · omega
      · rw [hecho] at herased
        simp at herased
  | char =>
      rw [hkey] at hecho
      have hagrees := @agrees_readLoop len [x] input hroom
      have hlength := congrArg List.length hecho
      dsimp only at hlength
      rw [length_echoing_edited, List.nil_append, ← hagrees.echo, List.length_singleton] at hlength
      omega

/-! ## One call -/

/-- The discipline has the same characters before it as the console. -/
structure Inv (s : Console) : Prop where
  disciplined : Disciplined s
  left : unread s.prevChar s.input = s.left

theorem step_eq {s : Console} {o : Outcome} (hlen : len ≠ 0)
    (hread : stdRead true DM_STDIN_NUM s.prevChar s.input len = .ok o) :
    step s len = some
      { prevChar := o.prevChar
        input := o.input
        left := (edited len [] s.left).input
        calls := s.calls ++ [⟨o, edited len [] s.left⟩] } := by
  rw [step, if_neg hlen, hread]

/-- The calls so far were right, so the new one decides. -/
theorem disciplined_append {s : Console} (h : Disciplined s) {prevChar : Int} {input left : Input}
    {f : Finished} : Disciplined ⟨prevChar, input, left, s.calls ++ [f]⟩ ↔ f.Right := by
  constructor
  · exact fun hall => hall f (List.mem_append_right _ (List.mem_singleton_self f))
  · intro hf g hg
    rcases List.mem_append.mp hg with hg | hg
    · exact h g hg
    · exact List.mem_singleton.mp hg ▸ hf

/-- **One call.** -/
theorem step_spec {s : Console} (hinv : Inv s) (hlen : len ≠ 0) :
    ∃ s', step s len = some s' ∧ (Disciplined s' → Inv s') ∧
      (Disciplined s' ↔ s.prevChar = -1 ∧ Completes len [] s.input) := by
  by_cases hprev : s.prevChar = -1
  · have hread : stdRead true DM_STDIN_NUM s.prevChar s.input len =
        .ok (readLoop len [] s.input) := by
      unfold stdRead
      simp [hlen, hprev, DM_STDIN_NUM, DM_STDERR_NUM]
    have hleft : s.left = s.input := by
      rw [← hinv.left, unread, if_pos hprev]
    have hagrees := @agrees_readLoop len [] s.input (Nat.zero_le _)
    have hright : (Finished.mk (readLoop len [] s.input) (edited len [] s.input)).Right ↔
        Completes len [] s.input := by
      rw [← hagrees.counted]
      constructor
      · exact fun h => h.counted
      · intro h
        have hline := @isLine_edited len [] (fun c hc => absurd hc List.not_mem_nil) s.input
        rw [← hagrees.stored] at hline
        exact ⟨h, hline, hagrees.stored, hagrees.echo⟩
    refine ⟨_, step_eq hlen hread, fun hdisciplined => ⟨hdisciplined, ?_⟩, ?_⟩
    · dsimp only
      rw [hleft]
      exact hagrees.left
    · rw [disciplined_append hinv.disciplined, hleft, hright]
      exact (and_iff_right hprev).symm
  · have hread : stdRead true DM_STDIN_NUM s.prevChar s.input len =
        .ok (readLoop len [UInt8.ofNat s.prevChar.toNat] s.input) := by
      unfold stdRead
      simp [hlen, hprev, DM_STDIN_NUM, DM_STDERR_NUM]
    have hleft : s.left = (UInt8.ofNat s.prevChar.toNat, false) :: s.input := by
      rw [← hinv.left, unread, if_neg hprev]
    have hnot : ¬(Finished.mk (readLoop len [UInt8.ofNat s.prevChar.toNat] s.input)
        (edited len [] s.left)).Right := by
      intro h
      rw [hleft] at h
      exact readLoop_raw_ne hlen s.input ⟨h.counted, h.stored, h.echo⟩
    have hiff := @disciplined_append s hinv.disciplined
      (readLoop len [UInt8.ofNat s.prevChar.toNat] s.input).prevChar
      (readLoop len [UInt8.ofNat s.prevChar.toNat] s.input).input (edited len [] s.left).input
      ⟨readLoop len [UInt8.ofNat s.prevChar.toNat] s.input, edited len [] s.left⟩
    refine ⟨_, step_eq hlen hread, fun hdisciplined => absurd (hiff.mp hdisciplined) hnot, ?_⟩
    exact iff_of_false (fun hdisciplined => hnot (hiff.mp hdisciplined)) fun h => hprev h.1

/-- **The console.**  In all states of a run the calls have returned what they have stored, and
delivered and echoed the lines of the input as they are edited, exactly if no call begins with
a character that has been read ahead and every call completes. -/
theorem disciplined_iff_ok (input : Input) (lens : List Nat) :
    (∀ n s, Transition.run step (.start input) (lens.take n) = some s → Disciplined s) ↔
      Transition.Conforming step Ok (.start input) lens := by
  have hstart : Inv (.start input) := ⟨nofun, rfl⟩
  apply Transition.forall_states_iff_of_partial (fun _ h => h.disciplined) _ hstart
  intro s len hinv
  by_cases hlen : len = 0
  · left
    exact ⟨if_pos hlen, fun hne => absurd hlen hne⟩
  · right
    obtain ⟨s', hstep, hkeep, hiff⟩ := step_spec hinv hlen
    refine ⟨s', hstep, hkeep, hiff.trans ?_⟩
    constructor
    · exact fun h _ => h
    · exact fun h => h hlen

end

/-! ## A character behind the end of a line -/

/-- Two carriage returns and a line feed: the second line begins with a carriage return. -/
theorem not_disciplined_readAhead :
    ∃ n s, Transition.run step (.start [(13, false), (13, false), (10, false)])
      ([80, 80].take n) = some s ∧ ¬Disciplined s := by
  refine ⟨2, _, rfl, ?_⟩
  intro hdisciplined
  have hstored := (hdisciplined _ (List.mem_cons_of_mem _ List.mem_cons_self)).stored
  revert hstored
  decide

end Genstd
