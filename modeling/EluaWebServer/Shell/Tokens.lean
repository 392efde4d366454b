import EluaWebServer.Lib.CaseFold
import EluaWebServer.Lib.Fields
import EluaWebServer.Lib.Scanner

/-!
# The words of a command line

`shell_start` puts another character in the place of the spaces in quotes, makes the spaces in a
row one, and separates the command.  `shell_lua` separates the arguments and, in those that start
with a quote, turns the characters back.  What is passed to Lua is compared with the words of the
line.
-/

namespace Shell

open CaseFold Fields

def SHELL_ALT_SPACE : UInt8 := 7

def SHELL_MAX_LUA_ARGS : Nat := 8

/-- `'\''` and `'"'`. -/
def isQuote (c : UInt8) : Bool := c = 39 ∨ c = 34

/-! ## The command line -/

/-- The line feed at the end, and the line ends as spaces. -/
def spaced (line : List UInt8) : List UInt8 :=
  (if line.getLast? = some 10 then line else line ++ [10]).map fun c =>
    if c = 13 ∨ c = 10 then 32 else c

/-- The loop that transforms the spaces in a quoted string, with `quote_char` as the state
inside of quotes. -/
def quotes : Scanner (Option UInt8) UInt8 UInt8 where
  step quote c :=
    if isQuote c then
      match quote with
      | none => (some c, [c])
      | some q => (if c = q then none else some q, [c])
    else if c = 32 ∧ quote ≠ none then (quote, [SHELL_ALT_SPACE])
    else (quote, [c])

/-- The handlers of the commands. -/
inductive Handler where
  | help
  | lua
  | recv
  | ver
  | ls
  | cat
  | cp
  deriving DecidableEq

/-- `shell_commands`. -/
def shellCommands : List (List UInt8 × Option Handler) :=
  [([0x68, 0x65, 0x6C, 0x70], some .help),
   ([0x6C, 0x75, 0x61], some .lua),
   ([0x72, 0x65, 0x63, 0x76], some .recv),
   ([0x76, 0x65, 0x72], some .ver),
   ([0x65, 0x78, 0x69, 0x74], none),
   ([0x6C, 0x73], some .ls),
   ([0x64, 0x69, 0x72], some .ls),
   ([0x63, 0x61, 0x74], some .cat),
   ([0x74, 0x79, 0x70, 0x65], some .cat),
   ([0x63, 0x70], some .cp)]

/-- What a line comes to. -/
inductive Outcome where
  /-- There is nothing in the line. -/
  | nothing
  | invalidQuotedString
  /-- `SHELL_ERRMSG`. -/
  | notACommand
  | exit
  | tooManyArguments
  | luaMain (argv : List (List UInt8))
  | other (handler : Handler) (args : List UInt8)
  deriving DecidableEq

/-- An argument of `shell_lua`: without its quotes, if it starts with one. -/
def argument (word : List UInt8) : List UInt8 :=
  match word with
  | [] => []
  | c :: rest =>
      if isQuote c then (rest.map fun b => if b = SHELL_ALT_SPACE then 32 else b).dropLast
      else c :: rest

/-- The loop of `shell_lua`, with what is from `prev` up to `p`. -/
def luaArgs (nargs : Nat) (prev : List UInt8) : List UInt8 → Option (List (List UInt8))
  | [] => some []
  | c :: rest =>
      if c = 32 then
        if nargs = SHELL_MAX_LUA_ARGS then none
        else (luaArgs (nargs + 1) [] rest).map (argument prev :: ·)
      else luaArgs nargs (prev ++ [c]) rest

def shellLua (args : List UInt8) : Outcome :=
  match luaArgs 0 [] args with
  | none => .tooManyArguments
  | some argv => .luaMain ([0x6C, 0x75, 0x61] :: argv)

/-- The search for the command. -/
def execute (cmd args : List UInt8) : Outcome :=
  match shellCommands.find? fun c => strcasecmpEq c.1 cmd with
  | none => .notACommand
  | some (_, none) => .exit
  | some (_, some handler) => if handler = .lua then shellLua args else .other handler args

/-- One line of `shell_start`. -/
def shellStart (line : List UInt8) : Outcome :=
  if line = [] then .nothing
  else if quotes.after none (spaced line) ≠ none then .invalidQuotedString
  else
    let cmd := squeeze 32 false (quotes.out none (spaced line))
    if cmd.length = 1 then .nothing
    else
      let temp := if cmd.head? = some 32 then cmd.tail else cmd
      match temp.dropWhile (· ≠ 32) with
      | [] => .notACommand
      | _ :: args => execute (temp.takeWhile (· ≠ 32)) args

/-! ## The words -/

/-- The quote that is open behind a character. -/
def quoteAfter (quote : Option UInt8) (c : UInt8) : Option UInt8 :=
  match quote with
  | none => if isQuote c then some c else none
  | some q => if c = q then none else some q

/-- The words of a line, split at the spaces that are not quoted, with what the first one has
already. -/
def splitWords (quote : Option UInt8) (word : List UInt8) : List UInt8 → List (List UInt8)
  | [] => close word
  | c :: rest =>
      if c = 32 ∧ quote = none then close word ++ splitWords none [] rest
      else splitWords (quoteAfter quote c) (word ++ [c]) rest

/-- Every quote is closed. -/
def Balanced (line : List UInt8) : Prop := (spaced line).foldl quoteAfter none = none

/-- The words of a line. -/
def words (line : List UInt8) : List (List UInt8) := splitWords none [] (spaced line)

/-- A word without its enclosing quotes: the one it starts with, and the last one like it. -/
def unquoted (word : List UInt8) : List UInt8 :=
  match word with
  | [] => []
  | q :: rest => if isQuote q then (rest.reverse.erase q).reverse else q :: rest

/-- The line is accepted for the `lua` command. -/
def Accepted (line : List UInt8) : Prop :=
  Balanced line ∧ strcasecmpEq [0x6C, 0x75, 0x61] ((words line).headD []) = true ∧
    (words line).tail.length ≤ SHELL_MAX_LUA_ARGS

/-- Lua gets the words of the line. -/
def Tokenized (line : List UInt8) : Prop :=
  shellStart line = .luaMain ([0x6C, 0x75, 0x61] :: (words line).tail.map unquoted)

/-- What the passes over the line do not harm: a word that starts with a quote ends in this quote
and does not have the character that stands for a space, and another one has no space. -/
def Restored (word : List UInt8) : Prop :=
  match word with
  | [] => True
  | q :: rest =>
      if isQuote q then (∀ c ∈ rest.getLast?, c = q) ∧ SHELL_ALT_SPACE ∉ rest
      else 32 ∉ q :: rest

instance : DecidablePred Accepted := by
  intro line
  unfold Accepted Balanced
  infer_instance

instance : DecidablePred Tokenized := by
  intro line
  unfold Tokenized
  infer_instance

variable {line word cs : List UInt8} {quote : Option UInt8} {c : UInt8}

/-! ## The passes -/

/-- What is in the line for a character of a word. -/
def mark (c : UInt8) : UInt8 := if c = 32 then SHELL_ALT_SPACE else c

theorem mark_ne (c : UInt8) : mark c ≠ 32 := by
  by_cases hc : c = 32
  · simp [mark, hc, SHELL_ALT_SPACE]
  · simp [mark, hc]

theorem mark_eq (h : c ≠ 32) : mark c = c := if_neg h

theorem ne_space_of_isQuote (h : isQuote c = true) : c ≠ 32 := by
  intro hc
  subst hc
  exact absurd h (by decide)

theorem isQuote_of_mem_none : ∀ q ∈ (none : Option UInt8), isQuote q = true := by
  intro q hq
  exact absurd hq (Option.not_mem_none q)

/-- The step of the loop, for a state in which a quote is open. -/
theorem quotes_step (hquote : ∀ q ∈ quote, isQuote q = true) (c : UInt8) :
    quotes.step quote c =
      (quoteAfter quote c, [if c = 32 ∧ quote ≠ none then SHELL_ALT_SPACE else c]) := by
  by_cases hc : isQuote c = true
  · have hspace := ne_space_of_isQuote hc
    cases quote with
    | none => simp [quotes, quoteAfter, hc]
    | some q => simp [quotes, quoteAfter, hc, hspace]
  · cases quote with
    | none => simp [quotes, quoteAfter, hc]
    | some q =>
        have hq : c ≠ q := by
          intro heq
          exact hc (heq ▸ hquote q rfl)
        by_cases hspace : c = 32
        · subst hspace
          simp [quotes, quoteAfter, hc, hq]
        · simp [quotes, quoteAfter, hc, hq, hspace]

theorem isQuote_of_mem_quoteAfter (hquote : ∀ q ∈ quote, isQuote q = true) (c : UInt8) :
    ∀ q ∈ quoteAfter quote c, isQuote q = true := by
  intro q hq
  cases quote with
  | none =>
      by_cases hc : isQuote c = true
      · simp only [quoteAfter, if_pos hc, Option.mem_some_iff] at hq
        exact hq ▸ hc
      · simp [quoteAfter, hc] at hq
  | some q' =>
      by_cases hc : c = q'
      · simp [quoteAfter, hc] at hq
      · simp only [quoteAfter, if_neg hc, Option.mem_some_iff] at hq
        exact hquote q (by simp [hq])

/-- **The loop** knows whether a quote is open. -/
theorem quotes_after (hquote : ∀ q ∈ quote, isQuote q = true) (cs : List UInt8) :
    quotes.after quote cs = cs.foldl quoteAfter quote := by
  induction cs generalizing quote with
  | nil => rfl
  | cons c cs ih =>
      have hstep := quotes_step hquote c
      have hrest := ih (isQuote_of_mem_quoteAfter hquote c)
      rw [Scanner.after_cons, hstep]
      exact hrest

/-- **The words** of the line are in what the loop leaves. -/
theorem fields_quotes (hquote : ∀ q ∈ quote, isQuote q = true) (word cs : List UInt8) :
    fields 32 (word.map mark) (quotes.out quote cs) =
      (splitWords quote word cs).map (List.map mark) := by
  induction cs generalizing quote word with
  | nil =>
      by_cases hword : word = []
      · simp [fields, splitWords, close, hword]
      · simp [fields, splitWords, close, hword]
  | cons c cs ih =>
      have hrest := ih (isQuote_of_mem_quoteAfter hquote c) (word ++ [c])
      rw [Scanner.out_cons, quotes_step hquote c, List.singleton_append]
      by_cases hc : c = 32
      · subst hc
        cases quote with
        | none =>
            have hnext := ih isQuote_of_mem_none []
            have hafter : quoteAfter none 32 = none := by decide
            by_cases hword : word = []
            · simpa [fields, splitWords, close, hword, hafter] using hnext
            · simpa [fields, splitWords, close, hword, hafter] using hnext
        | some q =>
            have hmark : mark 32 = SHELL_ALT_SPACE := by decide
            have halt : SHELL_ALT_SPACE ≠ 32 := by decide
            simpa [fields, splitWords, hmark, halt] using hrest
      · simpa [fields, splitWords, hc, mark_eq hc] using hrest

/-- The line ends in a space. -/
theorem spaced_eq (line : List UInt8) : ∃ front, spaced line = front ++ [32] := by
  have hlast : ∃ xs, (if line.getLast? = some 10 then line else line ++ [10]) = xs ++ [10] := by
    by_cases h : line.getLast? = some 10
    · have hne : line ≠ [] := by
        intro hnil
        simp [hnil] at h
      have hget : line.getLast hne = 10 := by
        simpa [List.getLast?_eq_some_getLast hne] using h
      refine ⟨line.dropLast, ?_⟩
      rw [if_pos h, ← hget, List.dropLast_append_getLast]
    · exact ⟨line, if_neg h⟩
  obtain ⟨xs, hxs⟩ := hlast
  refine ⟨xs.map fun c => if c = 13 ∨ c = 10 then 32 else c, ?_⟩
  rw [spaced, hxs, List.map_append]
  rfl

theorem quoteAfter_space (hquote : ∀ q ∈ quote, isQuote q = true) :
    quoteAfter quote 32 = quote := by
  cases quote with
  | none => rfl
  | some q =>
      have hq : (32 : UInt8) ≠ q := (ne_space_of_isQuote (hquote q rfl)).symm
      simp [quoteAfter, hq]

theorem isQuote_of_mem_foldl (hquote : ∀ q ∈ quote, isQuote q = true) (cs : List UInt8) :
    ∀ q ∈ cs.foldl quoteAfter quote, isQuote q = true := by
  induction cs generalizing quote with
  | nil => exact hquote
  | cons c cs ih => exact ih (isQuote_of_mem_quoteAfter hquote c)

/-- The space at the end is not quoted. -/
theorem quotes_out_eq (hbalanced : Balanced line) :
    ∃ front, quotes.out none (spaced line) = front ++ [32] := by
  obtain ⟨front, hfront⟩ := spaced_eq line
  have hquote : front.foldl quoteAfter none = none := by
    rw [Balanced, hfront, List.foldl_append] at hbalanced
    have hspace := quoteAfter_space (isQuote_of_mem_foldl isQuote_of_mem_none front)
    exact hspace.symm.trans hbalanced
  refine ⟨quotes.out none front, ?_⟩
  rw [hfront, Scanner.out_append, quotes_after isQuote_of_mem_none, hquote]
  rfl

/-- **Squeezing.**  What the commands see, behind the space in front. -/
theorem squeeze_quotes (hbalanced : Balanced line) :
    squeeze 32 true (quotes.out none (spaced line)) =
      joined 32 ((words line).map (List.map mark)) := by
  obtain ⟨front, hfront⟩ := quotes_out_eq hbalanced
  have hfields := fields_quotes isQuote_of_mem_none [] (spaced line)
  rw [hfront, squeeze_eq_joined, ← hfront]
  exact congrArg (joined 32) hfields

/-- No word is empty. -/
theorem mark_word_ne_nil (h : word ∈ words line) : word.map mark ≠ [] := by
  have hmem := List.mem_map_of_mem (f := List.map mark) h
  rw [words, ← fields_quotes isQuote_of_mem_none [] (spaced line)] at hmem
  exact ne_nil_of_mem hmem

theorem space_not_mem_mark (word : List UInt8) : 32 ∉ word.map mark := by
  intro h
  obtain ⟨c, hc, heq⟩ := List.mem_map.mp h
  exact mark_ne c heq

/-- The space in front is left out. -/
theorem temp_eq {w : List UInt8} (hne : w ≠ []) (hw : 32 ∉ w) (ws : List (List UInt8))
    {cmd : List UInt8} (h : cmd = joined 32 (w :: ws) ∨ cmd = 32 :: joined 32 (w :: ws)) :
    cmd.length ≠ 1 ∧
      (if cmd.head? = some 32 then cmd.tail else cmd) = joined 32 (w :: ws) := by
  obtain ⟨c, rest, rfl⟩ := List.exists_cons_of_ne_nil hne
  have hc : c ≠ 32 := by
    intro heq
    exact hw (by simp [heq])
  rw [joined_cons] at h ⊢
  cases h with
  | inl h =>
      subst h
      exact ⟨by simp, by simp [hc]⟩
  | inr h =>
      subst h
      exact ⟨by simp, by simp⟩

/-- **The line.**  It comes to what the command makes of the other words. -/
theorem shellStart_eq (hbalanced : Balanced line) :
    shellStart line =
      match words line with
      | [] => .nothing
      | w :: ws => execute (w.map mark) (joined 32 (ws.map (List.map mark))) := by
  have hafter : quotes.after none (spaced line) = none := by
    rw [quotes_after isQuote_of_mem_none]
    exact hbalanced
  obtain ⟨front, hfront⟩ := quotes_out_eq hbalanced
  have hsqueeze := squeeze_quotes hbalanced
  have hcmd := @squeeze_false UInt8 32 _ (quotes.out none (spaced line))
  rw [hsqueeze] at hcmd
  cases hwords : words line with
  | nil =>
      have hone : squeeze 32 false (quotes.out none (spaced line)) = [32] := by
        have hne : squeeze 32 false (quotes.out none (spaced line)) ≠ [] := by
          rw [hfront]
          exact squeeze_false_ne_nil (by simp)
        rw [hwords] at hcmd
        exact hcmd.resolve_left hne
      by_cases hline : line = []
      · simp [shellStart, hline]
      · simp [shellStart, hline, hafter, hone]
  | cons w ws =>
      have hline : line ≠ [] := by
        intro hnil
        have hempty : words [] = [] := by decide
        rw [hnil, hempty] at hwords
        exact absurd hwords (List.cons_ne_nil w ws).symm
      rw [hwords, List.map_cons] at hcmd
      obtain ⟨hlength, htemp⟩ :=
        temp_eq (mark_word_ne_nil (hwords ▸ List.mem_cons_self)) (space_not_mem_mark w) _ hcmd
      obtain ⟨htake, hdrop⟩ :=
        takeWhile_joined (space_not_mem_mark w) (ws.map (List.map mark))
      simp only [shellStart, if_neg hline, hafter, if_neg hlength, htemp, hdrop, htake]
      rfl

/-! ## The arguments -/

theorem luaArgs_append {nargs : Nat} {w : List UInt8} (hw : 32 ∉ w) (prev rest : List UInt8) :
    luaArgs nargs prev (w ++ 32 :: rest) =
      if nargs = SHELL_MAX_LUA_ARGS then none
      else (luaArgs (nargs + 1) [] rest).map (argument (prev ++ w) :: ·) := by
  induction w generalizing prev with
  | nil => simp [luaArgs]
  | cons c w ih =>
      have hc : c ≠ 32 := by
        intro heq
        exact hw (by simp [heq])
      have hrest := ih (fun h => hw (List.mem_cons_of_mem c h)) (prev ++ [c])
      simpa [luaArgs, hc] using hrest

/-- **The loop** of `shell_lua`. -/
theorem luaArgs_joined {nargs : Nat} (hnargs : nargs ≤ SHELL_MAX_LUA_ARGS)
    {ws : List (List UInt8)} (h : ∀ w ∈ ws, 32 ∉ w) :
    luaArgs nargs [] (joined 32 ws) =
      if nargs + ws.length ≤ SHELL_MAX_LUA_ARGS then some (ws.map argument) else none := by
  induction ws generalizing nargs with
  | nil => simp [joined, luaArgs, hnargs]
  | cons w ws ih =>
      rw [joined_cons, luaArgs_append (h w List.mem_cons_self), List.nil_append]
      by_cases hfull : nargs = SHELL_MAX_LUA_ARGS
      · simp [hfull]
      · have hws : ∀ v ∈ ws, 32 ∉ v := by
          intro v hv
          exact h v (List.mem_cons_of_mem w hv)
        have hrest := @ih (nargs + 1) (by omega) hws
        rw [if_neg hfull, hrest, List.length_cons]
        by_cases hlen : nargs + 1 + ws.length ≤ SHELL_MAX_LUA_ARGS
        · rw [if_pos hlen, if_pos (by omega)]
          rfl
        · rw [if_neg hlen, if_neg (by omega)]
          rfl

/-- The command is found whatever the case of its letters. -/
theorem execute_lua {cmd : List UInt8} (h : strcasecmpEq [0x6C, 0x75, 0x61] cmd = true)
    (args : List UInt8) : execute cmd args = shellLua args := by
  have hlower : cmd.map lower = [0x6C, 0x75, 0x61] := (strcasecmpEq_iff.mp h).symm
  have hfind : (shellCommands.find? fun c => strcasecmpEq c.1 cmd) =
      shellCommands.find? fun c => c.1.map lower = [0x6C, 0x75, 0x61] := by
    simp only [strcasecmpEq, hlower]
  have hlua : (shellCommands.find? fun c => c.1.map lower = [0x6C, 0x75, 0x61]) =
      some ([0x6C, 0x75, 0x61], some .lua) := by decide
  simp [execute, hfind, hlua]

/-- Only this one is. -/
theorem strcasecmpEq_of_luaMain {cmd args : List UInt8} {argv : List (List UInt8)}
    (h : execute cmd args = .luaMain argv) : strcasecmpEq [0x6C, 0x75, 0x61] cmd = true := by
  have hentry : ∀ e ∈ shellCommands, e.2 = some .lua → e.1 = [0x6C, 0x75, 0x61] := by decide
  unfold execute at h
  split at h
  · cases h
  · cases h
  · rename_i name handler hfind
    by_cases hlua : handler = .lua
    · have hname := hentry _ (List.mem_of_find?_eq_some hfind) (congrArg some hlua)
      have hfound := List.find?_some hfind
      exact hname ▸ hfound
    · rw [if_neg hlua] at h
      cases h

theorem map_eq_self_iff {f : UInt8 → UInt8} : cs.map f = cs ↔ ∀ c ∈ cs, f c = c := by
  have h := List.map_inj_left (l := cs) (f := f) (g := id)
  rwa [List.map_id] at h

/-- The name of the command has no space, and none in its place. -/
theorem map_mark_of_lua {w : List UInt8}
    (h : strcasecmpEq [0x6C, 0x75, 0x61] w = true ∨
      strcasecmpEq [0x6C, 0x75, 0x61] (w.map mark) = true) : w.map mark = w := by
  have hspace : 32 ∉ w := by
    intro hmem
    cases h with
    | inl h =>
        have hlower := List.mem_map_of_mem (f := lower) hmem
        rw [← strcasecmpEq_iff.mp h] at hlower
        exact absurd hlower (by decide)
    | inr h =>
        have hlower := List.mem_map_of_mem (f := lower) (List.mem_map_of_mem (f := mark) hmem)
        rw [← strcasecmpEq_iff.mp h] at hlower
        exact absurd hlower (by decide)
  refine map_eq_self_iff.mpr ?_
  intro c hc
  exact mark_eq fun heq => hspace (heq ▸ hc)

theorem shellLua_joined (ws : List (List UInt8)) :
    shellLua (joined 32 (ws.map (List.map mark))) =
      if ws.length ≤ SHELL_MAX_LUA_ARGS then
        .luaMain ([0x6C, 0x75, 0x61] :: ws.map fun w => argument (w.map mark))
      else .tooManyArguments := by
  have hspace : ∀ v ∈ ws.map (List.map mark), 32 ∉ v := by
    intro v hv
    obtain ⟨w, -, rfl⟩ := List.mem_map.mp hv
    exact space_not_mem_mark w
  rw [shellLua, luaArgs_joined (Nat.zero_le _) hspace]
  by_cases hlen : ws.length ≤ SHELL_MAX_LUA_ARGS
  · simp [hlen]
  · simp [hlen]

/-- **Acceptance.**  What is accepted comes to Lua, with the words as the code makes them. -/
theorem shellStart_of_accepted (h : Accepted line) :
    shellStart line =
      .luaMain ([0x6C, 0x75, 0x61] ::
        (words line).tail.map fun w => argument (w.map mark)) := by
  obtain ⟨hbalanced, hcmd, hlength⟩ := h
  rw [shellStart_eq hbalanced]
  cases hwords : words line with
  | nil =>
      rw [hwords] at hcmd
      exact absurd hcmd (by decide)
  | cons w ws =>
      rw [hwords, List.headD_cons] at hcmd
      rw [hwords, List.tail_cons] at hlength
      have hmark : w.map mark = w := map_mark_of_lua (.inl hcmd)
      simp only [hmark, execute_lua hcmd, shellLua_joined, if_pos hlength, List.tail_cons]

/-- Nothing else does. -/
theorem accepted_iff : Accepted line ↔ ∃ argv, shellStart line = .luaMain argv := by
  constructor
  · intro h
    exact ⟨_, shellStart_of_accepted h⟩
  · intro h
    obtain ⟨argv, hargv⟩ := h
    by_cases hbalanced : Balanced line
    · rw [shellStart_eq hbalanced] at hargv
      cases hwords : words line with
      | nil =>
          rw [hwords] at hargv
          cases hargv
      | cons w ws =>
          rw [hwords] at hargv
          have hcmd := strcasecmpEq_of_luaMain hargv
          have hmark : w.map mark = w := map_mark_of_lua (.inr hcmd)
          simp only [execute_lua hcmd, shellLua_joined] at hargv
          refine ⟨hbalanced, ?_, ?_⟩
          · rw [hwords]
            exact hmark ▸ hcmd
          · rw [hwords, List.tail_cons]
            by_contra hlength
            rw [if_neg hlength] at hargv
            cases hargv
    · have hquotes : quotes.after none (spaced line) ≠ none := by
        rw [quotes_after isQuote_of_mem_none]
        exact hbalanced
      by_cases hline : line = []
      · simp [shellStart, hline] at hargv
      · simp [shellStart, hline, hquotes] at hargv

/-! ## The quotes -/

/-- What the passes have made of a character in a quoted word. -/
def restore (c : UInt8) : UInt8 := if mark c = SHELL_ALT_SPACE then 32 else mark c

theorem restore_space : restore 32 = 32 := by decide

theorem restore_alt : restore SHELL_ALT_SPACE = 32 := by decide

theorem restore_eq (hspace : c ≠ 32) (halt : c ≠ SHELL_ALT_SPACE) : restore c = c := by
  rw [restore, mark_eq hspace, if_neg halt]

/-- Only the character in the place of a space is changed. -/
theorem restore_eq_iff : restore c = c ↔ c ≠ SHELL_ALT_SPACE := by
  constructor
  · intro h halt
    subst halt
    exact absurd h (by decide)
  · intro halt
    by_cases hspace : c = 32
    · rw [hspace, restore_space]
    · exact restore_eq hspace halt

theorem ne_alt_of_isQuote (h : isQuote c = true) : c ≠ SHELL_ALT_SPACE := by
  intro hc
  subst hc
  exact absurd h (by decide)

/-- The quotes stay. -/
theorem restore_eq_quote_iff {q : UInt8} (hq : isQuote q = true) : restore c = q ↔ c = q := by
  have hspace := ne_space_of_isQuote hq
  by_cases halt : c = SHELL_ALT_SPACE
  · rw [halt, restore_alt]
    exact iff_of_false hspace.symm (ne_alt_of_isQuote hq).symm
  · rw [restore_eq_iff.mpr halt]

theorem count_restore {q : UInt8} (hq : isQuote q = true) (cs : List UInt8) :
    (cs.map restore).count q = cs.count q := by
  induction cs with
  | nil => rfl
  | cons c cs ih =>
      by_cases hc : c = q
      · simp [ih, hc, (restore_eq_quote_iff hq).mpr rfl]
      · have hrestore : restore c ≠ q := mt (restore_eq_quote_iff hq).mp hc
        simp [ih, hc, hrestore]

/-- A quoted word loses its last character. -/
theorem argument_quoted {q : UInt8} (hq : isQuote q = true) (rest : List UInt8) :
    argument ((q :: rest).map mark) = (rest.map restore).dropLast := by
  have hmark : mark q = q := mark_eq (ne_space_of_isQuote hq)
  rw [List.map_cons, hmark, argument, if_pos hq, List.map_map]
  rfl

/-- A character behind the last quote is lost, and the quote is not. -/
theorem map_restore_ne {q z : UInt8} (hq : isQuote q = true) (hz : z ≠ q) (init : List UInt8) :
    init.map restore ≠ ((init ++ [z]).reverse.erase q).reverse := by
  intro heq
  have hlast : (init ++ [z]).reverse.erase q = z :: init.reverse.erase q := by
    rw [List.reverse_append, List.reverse_singleton, List.singleton_append,
      List.erase_cons_tail (by simpa using hz)]
  rw [hlast] at heq
  by_cases hmem : q ∈ init
  · have hcount := congrArg (List.count q) heq
    have hpos := List.count_pos_iff.mpr hmem
    rw [count_restore hq, List.count_reverse, List.count_cons_of_ne hz, List.count_erase_self,
      List.count_reverse] at hcount
    omega
  · have hlength := congrArg List.length heq
    rw [List.erase_of_not_mem (by simpa using hmem)] at hlength
    simp at hlength

/-- **One word.** -/
theorem argument_eq_unquoted_iff :
    argument (word.map mark) = unquoted word ↔ Restored word := by
  cases word with
  | nil => simp [argument, unquoted, Restored]
  | cons q rest =>
      by_cases hq : isQuote q = true
      · rw [argument_quoted hq, unquoted, if_pos hq, Restored, if_pos hq]
        cases List.eq_nil_or_concat rest with
        | inl hrest => simp [hrest]
        | inr hrest =>
            obtain ⟨init, z, hrest⟩ := hrest
            rw [List.concat_eq_append] at hrest
            rw [hrest, List.map_append, List.map_singleton, List.dropLast_concat]
            by_cases hz : z = q
            · subst hz
              have herase : ((init ++ [z]).reverse.erase z).reverse = init := by simp
              rw [herase, map_eq_self_iff]
              constructor
              · intro hrestore
                refine ⟨by simp, ?_⟩
                intro halt
                rw [List.mem_append, List.mem_singleton] at halt
                cases halt with
                | inl halt => exact restore_eq_iff.mp (hrestore _ halt) rfl
                | inr halt => exact ne_alt_of_isQuote hq halt.symm
              · intro hrestored c hc
                refine restore_eq_iff.mpr ?_
                intro halt
                exact hrestored.2 (halt ▸ List.mem_append_left [z] hc)
            · refine iff_of_false (map_restore_ne hq hz init) ?_
              intro h
              exact hz (h.1 z (by simp))
      · have hmark : isQuote (mark q) ≠ true := by
          by_cases hspace : q = 32
          · rw [hspace]
            decide
          · rwa [mark_eq hspace]
        have hargument : argument ((q :: rest).map mark) = (q :: rest).map mark := by
          rw [List.map_cons, argument, if_neg hmark]
        rw [hargument, unquoted, if_neg hq, Restored, if_neg hq, map_eq_self_iff]
        constructor
        · intro h hmem
          exact mark_ne 32 (h 32 hmem)
        · intro h c hc
          exact mark_eq fun heq => h (heq ▸ hc)

/-- **The words of the line** are what Lua gets as long as the passes do not harm one of them. -/
theorem tokenized_iff_restored (h : Accepted line) :
    Tokenized line ↔ ∀ w ∈ (words line).tail, Restored w := by
  have hargs : ((words line).tail.map fun w => argument (w.map mark)) =
      (words line).tail.map unquoted ↔ ∀ w ∈ (words line).tail, Restored w := by
    rw [List.map_inj_left]
    constructor
    · intro heq w hw
      exact argument_eq_unquoted_iff.mp (heq w hw)
    · intro hrestored w hw
      exact argument_eq_unquoted_iff.mpr (hrestored w hw)
  rw [Tokenized, shellStart_of_accepted h]
  simpa using hargs

/-- `lua -e 'print 1'`. -/
theorem tokenized_quoted :
    Tokenized [108, 117, 97, 32, 45, 101, 32, 39, 112, 114, 105, 110, 116, 32, 49, 39] ∧
      ∀ w ∈ (words [108, 117, 97, 32, 45, 101, 32, 39, 112, 114, 105, 110, 116, 32, 49,
        39]).tail, Restored w :=
  ⟨by decide, (tokenized_iff_restored (by decide)).mp (by decide)⟩

/-- `lua a'b c'd`: the space in the quotes is passed as the character in its place. -/
theorem not_tokenized_inner :
    Accepted [108, 117, 97, 32, 97, 39, 98, 32, 99, 39, 100] ∧
      shellStart [108, 117, 97, 32, 97, 39, 98, 32, 99, 39, 100] =
        .luaMain [[108, 117, 97], [97, 39, 98, 7, 99, 39, 100]] ∧
      ¬ Tokenized [108, 117, 97, 32, 97, 39, 98, 32, 99, 39, 100] := by
  decide

end Shell
