import EluaWebServer.Lib.CString
import Mathlib.Algebra.Ring.Int.Defs
import Mathlib.Algebra.Ring.Nat

/-!
# Pages with scripts

`httpd_fs_open` reads a page to the buffer that all files share, and
`handle_elua_tags` sends it, with the output of each script in the place of the
script.  A pointer into the buffer is an index.  What is read outside of the
buffer has no result.
-/

namespace Httpd

open CString

/-- The size of the shared buffer. -/
def FILE_HUGE_SIZE : Nat := 300 * 1024

/-- The shared buffer after a file that fits has been read to it.  The zero goes
one byte too far. -/
def readHuge (huge file : List UInt8) : Option (List UInt8) :=
  if file.length + 1 < huge.length then
    some ((file ++ huge.drop file.length).set (file.length + 1) 0)
  else none

/-- `"<?lua"`. -/
def marker : List UInt8 := [60, 63, 108, 117, 97]

/-- `CGI_close`. -/
def CGI_close : List UInt8 := [63, 62]

def ISO_minor : UInt8 := 60

/-- What `handle_elua_tags` goes on from: `file.data`, `file.len`, which is a
`size_t`, and the state of the interpreter. -/
structure Page (σ : Type) where
  data : Nat
  len : Nat
  lua : σ

/-- What one turn of the loop does. -/
inductive Turn where
  /-- `s->len` bytes of the page are sent. -/
  | part (len : Nat) (bytes : List UInt8)
  /-- A script is run, and its output is sent. -/
  | script (start len : Nat) (output : List UInt8)
  /-- No end of the script is found. -/
  | unclosed

/-- The block that is sent. -/
def Turn.sent : Turn → List UInt8
  | .part _ bytes => bytes
  | .script _ _ output => output
  | .unclosed => []

/-- A `size_t`. -/
def sizeT (x : Int) : Nat := (x % 2 ^ 32).toNat

/-- Some bytes of the buffer, if they are in it. -/
def slice (buf : List UInt8) (start len : Nat) : Option (List UInt8) :=
  if start + len ≤ buf.length then some ((buf.drop start).take len) else none

/-- `s->len`, from where the start of a script marker is looked for, and how far
away it is found. -/
def partLen {σ : Type} (mss : Nat) (s : Page σ) (start : Nat) (ptr : Option Nat) : Nat :=
  let whole := if mss < s.len then mss else s.len
  match ptr with
  | some n =>
      if start + n ≠ s.data then
        if mss ≤ start + n - s.data then mss else start + n - s.data
      else whole
  | none => whole

/-- One turn of the loop of `handle_elua_tags`, for a way to run scripts. -/
def turn {σ : Type} (run : σ → List UInt8 → List UInt8 × σ) (mss : Nat) (buf : List UInt8)
    (s : Page σ) : Option (Page σ × Turn) :=
  (startsWith marker (buf.drop s.data)).bind fun isMarker =>
    if isMarker then
      let scriptptr := s.data + 6
      (strstr CGI_close (buf.drop scriptptr)).bind fun p =>
        match p with
        | some n =>
            (slice buf scriptptr n).map fun script =>
              let ran := run s.lua script
              let p := scriptptr + n + 2
              (⟨p, sizeT (s.len - 6 - (p - scriptptr : Nat)), ran.2⟩, .script scriptptr n ran.1)
        | none => some (⟨scriptptr, sizeT (s.len - 6), s.lua⟩, .unclosed)
    else
      let start := if buf[s.data]? = some ISO_minor then s.data + 1 else s.data
      (strchr ISO_minor (buf.drop start)).bind fun ptr =>
        let len := partLen mss s start ptr
        (slice buf s.data len).map fun bytes =>
          (⟨s.data + len, sizeT (s.len - len), s.lua⟩, .part len bytes)

/-- `handle_elua_tags`, for a number of turns: the turns with what they started
from, and what is left. -/
def handleEluaTags {σ : Type} (run : σ → List UInt8 → List UInt8 × σ) (mss : Nat)
    (buf : List UInt8) : Nat → Page σ → Option (List (Page σ × Turn) × Page σ)
  | 0, _ => none
  | fuel + 1, s =>
      if s.len = 0 then some ([], s)
      else
        (turn run mss buf s).bind fun (s', t) =>
          (handleEluaTags run mss buf fuel s').map fun (turns, last) => ((s, t) :: turns, last)

end Httpd
