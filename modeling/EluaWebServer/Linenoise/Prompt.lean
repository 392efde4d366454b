import EluaWebServer.Lib.Transition
import Mathlib.Data.List.Basic

/-!
# The history behind a prompt

`linenoisePrompt` puts an empty entry behind the lines of the history, in which it keeps what is
typed while older lines are shown, and takes the last entry away at the end.  An entry that is
left is stored again from the buffer.
-/

namespace Linenoise

abbrev Line := List UInt8

/-! ## Adding lines -/

/-- `histories[ id ]`, with a null pointer as `none`, and whether the array is allocated. -/
structure History where
  allocated : Bool
  lines : List (Option Line)

/-- A copy goes behind the other lines, and the first one out if there is no room. -/
def push (maxLen : Nat) (lines : List (Option Line)) (copy : Line) : List (Option Line) :=
  (if lines.length = maxLen then lines.tail else lines) ++ [some copy]

/-- What is done with the line up to `p`.  The allocations that are still to come say whether
there is memory. -/
def addSegment (maxLen : Nat) (forceEmpty : Bool) (lines : List (Option Line))
    (allocs : List Bool) (segment : Line) : Option (List (Option Line) × List Bool) :=
  if segment ≠ [] ∨ forceEmpty then
    match allocs with
    | true :: allocs => some (push maxLen lines segment, allocs)
    | _ => none
  else some (lines, allocs)

/-- The loop of `linenoise_internal_addhistory`, with what is from `line` up to `p`. -/
def addLoop (maxLen : Nat) (forceEmpty : Bool) (lines : List (Option Line))
    (allocs : List Bool) (segment : Line) : Line → List (Option Line)
  | [] =>
      match addSegment maxLen forceEmpty lines allocs segment with
      | none => lines
      | some (lines, _) => lines
  | c :: rest =>
      if c = 10 then
        match addSegment maxLen forceEmpty lines allocs segment with
        | none => lines
        | some (lines, allocs) =>
            if rest = [] then lines else addLoop maxLen forceEmpty lines allocs [] rest
      else addLoop maxLen forceEmpty lines allocs (segment ++ [c]) rest

/-- `linenoise_internal_addhistory`. -/
def internalAddhistory (maxLen : Nat) (h : History) (allocs : List Bool) (line : Line)
    (forceEmpty : Bool) : History :=
  if maxLen = 0 then h
  else if h.allocated then
    { h with lines := addLoop maxLen forceEmpty h.lines allocs [] line }
  else
    match allocs with
    | true :: allocs => ⟨true, addLoop maxLen forceEmpty h.lines allocs [] line⟩
    | _ => h

/-! ## The prompt -/

/-- What `term_getch` returns. -/
inductive Key where
  | enter
  | ctrlC
  | ctrlZ
  | backspace
  | ctrlT
  | left
  | right
  | up
  | down
  | del
  | home
  | endOfLine
  | ctrlU
  | ctrlK
  | other (c : Int)

def LINENOISE_CTRL_C : Int := -2

/-- `isprint`. -/
def isprint (c : Int) : Bool := decide (32 ≤ c ∧ c ≤ 126)

/-- The entries of the history, `history_index`, the text in the buffer and the cursor. -/
structure Prompt where
  lines : List (Option Line)
  index : Nat
  buf : Line
  pos : Nat

/-- The prompt waits for a key, or has returned and left some lines, or it has used a pointer that
leads nowhere. -/
inductive Phase where
  | reading (p : Prompt)
  | returned (ret : Int) (lines : List (Option Line))
  | fault

/-- The keys that edit the line, with room for `room` characters. -/
def Prompt.edit (room : Nat) (p : Prompt) : Key → Prompt
  | .backspace =>
      if 0 < p.pos ∧ 0 < p.buf.length then
        { p with buf := p.buf.take (p.pos - 1) ++ p.buf.drop p.pos, pos := p.pos - 1 }
      else p
  | .left => if 0 < p.pos then { p with pos := p.pos - 1 } else p
  | .right => if p.pos ≠ p.buf.length then { p with pos := p.pos + 1 } else p
  | .del =>
      if 0 < p.buf.length ∧ p.pos < p.buf.length then
        { p with buf := p.buf.take p.pos ++ p.buf.drop (p.pos + 1) }
      else p
  | .home => { p with pos := 0 }
  | .endOfLine => { p with pos := p.buf.length }
  | .ctrlU => { p with buf := [], pos := 0 }
  | .ctrlK => { p with buf := p.buf.take p.pos }
  | .other c =>
      if isprint c ∧ p.buf.length < room then
        { p with
          buf := p.buf.take p.pos ++ UInt8.ofNat c.toNat :: p.buf.drop p.pos
          pos := p.pos + 1 }
      else p
  | _ => p

/-- The entry that is shown. -/
def Prompt.cur (p : Prompt) : Nat := p.lines.length - 1 - p.index

/-- What is shown is stored again, if `strdup` finds memory. -/
def Prompt.store (p : Prompt) (alloc : Bool) : Prompt :=
  { p with lines := p.lines.set p.cur (if alloc then some p.buf else none) }

/-- Another entry is shown. -/
def Prompt.recall (room : Nat) (p : Prompt) (index : Nat) : Phase :=
  match p.lines[p.lines.length - 1 - index]? with
  | some (some line) =>
      .reading
        { p with index := index, buf := line.take room, pos := (line.take room).length }
  | _ => .fault

/-- `KC_UP` and `KC_DOWN`. -/
def Prompt.browse (room : Nat) (p : Prompt) (up alloc : Bool) : Phase :=
  if 1 < p.lines.length then
    if up then
      if p.lines.length ≤ p.index + 1 then
        .reading { p.store alloc with index := p.lines.length - 1 }
      else (p.store alloc).recall room (p.index + 1)
    else if p.index = 0 then .reading (p.store alloc)
    else (p.store alloc).recall room (p.index - 1)
  else .reading p

/-- The last entry is taken away. -/
def Prompt.finish (p : Prompt) (ret : Int) : Phase :=
  if p.lines = [] then .fault else .returned ret p.lines.dropLast

/-- One key, with whether there is memory for `strdup`. -/
def Prompt.press (room : Nat) (p : Prompt) (k : Key × Bool) : Phase :=
  match k.1 with
  | .enter => p.finish p.buf.length
  | .ctrlC => p.finish LINENOISE_CTRL_C
  | .ctrlZ => p.finish (-1)
  | .up => p.browse room true k.2
  | .down => p.browse room false k.2
  | key => .reading (p.edit room key)

/-- No key is read behind the end. -/
def step (room : Nat) (s : Phase) (k : Key × Bool) : Option Phase :=
  match s with
  | .reading p => some (p.press room k)
  | ended => some ended

/-- The lines of a component that are stored, at most `maxLen`. -/
structure Stored where
  maxLen : Nat
  allocated : Bool
  lines : List Line
  length_le : lines.length ≤ maxLen
  lines_eq_nil : allocated = false → lines = []

/-- The prompt behind the push of the temporary entry. -/
def start (h : Stored) (allocs : List Bool) : Prompt :=
  ⟨(internalAddhistory h.maxLen ⟨h.allocated, h.lines.map some⟩ allocs [] true).lines, 0, [], 0⟩

/-- `linenoisePrompt`, with a buffer that has room for `room` characters and the terminator. -/
def linenoisePrompt (room : Nat) (h : Stored) (allocs : List Bool) (keys : List (Key × Bool)) :
    Option Phase :=
  Transition.run (step room) (.reading (start h allocs)) keys

/-! ## What is kept -/

def Phase.history : Phase → Option (List (Option Line))
  | .returned _ lines => some lines
  | _ => none

/-- The history is the same as before. -/
def Kept (room : Nat) (h : Stored) (allocs : List Bool) (keys : List (Key × Bool)) : Prop :=
  (linenoisePrompt room h allocs keys).bind Phase.history = some (h.lines.map some)

def Key.ends : Key → Bool
  | .enter | .ctrlC | .ctrlZ => true
  | _ => false

/-- The keys end the prompt. -/
def Ends (keys : List (Key × Bool)) : Prop := ∃ k ∈ keys, k.1.ends = true

/-- A key does not change the text of a line that has been recalled. -/
def LeavesText (room : Nat) (s : Phase) (k : Key × Bool) : Prop :=
  match s with
  | .reading p => p.index ≠ 0 → (p.edit room k.1).buf = p.buf
  | _ => True

/-- No line that has been recalled is edited. -/
def Unedited (room : Nat) (h : Stored) (allocs : List Bool) (keys : List (Key × Bool)) : Prop :=
  Transition.Conforming (step room) (LeavesText room) (.reading (start h allocs)) keys

/-- There is room and memory for the temporary entry. -/
def Pushed (h : Stored) (allocs : List Bool) : Prop :=
  h.lines.length < h.maxLen ∧
    (if h.allocated then [true] else [true, true]) <+: allocs

/-- Where `KC_UP` and `KC_DOWN` lead. -/
def Prompt.target (p : Prompt) (up : Bool) : Option Nat :=
  if up then if p.lines.length ≤ p.index + 1 then none else some (p.index + 1)
  else if p.index = 0 then none
  else some (p.index - 1)

/-- The line that is left fits into the buffer and can be stored again, and the one that is
shown next is there. -/
def Prompt.SparesBrowse (room : Nat) (p : Prompt) (up alloc : Bool) : Prop :=
  1 < p.lines.length →
    (p.index ≠ 0 → ∀ line, p.lines[p.cur]? = some (some line) → line.length ≤ room) ∧
      ∀ j, p.target up = some j →
        (p.index ≠ 0 → alloc = true) ∧ p.lines[p.lines.length - 1 - j]? ≠ some none

/-- A key costs no line. -/
def Spares (room : Nat) (s : Phase) (k : Key × Bool) : Prop :=
  match s with
  | .reading p =>
      match k.1 with
      | .enter | .ctrlC | .ctrlZ => p.index ≠ 0 → p.lines[p.cur]? ≠ some none
      | .up => p.SparesBrowse room true k.2
      | .down => p.SparesBrowse room false k.2
      | _ => True
  | _ => True

/-- There is a temporary entry, and no key costs a line. -/
def Spared (room : Nat) (h : Stored) (allocs : List Bool) (keys : List (Key × Bool)) : Prop :=
  Pushed h allocs ∧
    Transition.Conforming (step room) (Spares room) (.reading (start h allocs)) keys

instance (room : Nat) (s : Phase) (k : Key × Bool) : Decidable (LeavesText room s k) :=
  match s with
  | .reading p => inferInstanceAs (Decidable (p.index ≠ 0 → (p.edit room k.1).buf = p.buf))
  | .returned _ _ => inferInstanceAs (Decidable True)
  | .fault => inferInstanceAs (Decidable True)

instance : DecidablePred Ends := by
  intro keys
  unfold Ends
  infer_instance

instance (room : Nat) (h : Stored) (allocs : List Bool) (keys : List (Key × Bool)) :
    Decidable (Unedited room h allocs keys) := by
  unfold Unedited
  infer_instance

instance (room : Nat) (h : Stored) (allocs : List Bool) (keys : List (Key × Bool)) :
    Decidable (Kept room h allocs keys) := by
  unfold Kept
  infer_instance

end Linenoise
