import Packrat.Text.Unprintable
set_option autoImplicit false
set_option relaxedAutoImplicit false

/-!
# Quoted text

Text inside a message is written on one line between quotation marks, so that the reader sees
where it ends and which characters it holds. The mark is the apostrophe, or the double quote for a
text with an apostrophe and no double quote. Inside, the mark and the backslash follow a
backslash, line feed, carriage return and tab have letters, and every other unprintable character
is written by its code point in hexadecimal digits, two, four or eight of them.

## Main definitions

* `Packrat.Quoted.mark` — the mark of a text.
* `Packrat.Quoted.escape` — how one character is written between two marks.
* `Packrat.quote` — the quoted form of a string.
-/

namespace Packrat

namespace Quoted

/-- The last digits of a number in hexadecimal notation, as many as asked for. -/
def hexDigits : Nat → Nat → List Char
  | 0, _ => []
  | width + 1, n => hexDigits width (n / 16) ++ [Nat.digitChar (n % 16)]

/-- A character written by its code point. -/
def byCodePoint (c : Char) : List Char :=
  if c.toNat < 0x100 then '\x5c' :: 'x' :: hexDigits 2 c.toNat
  else if c.toNat < 0x10000 then '\x5c' :: 'u' :: hexDigits 4 c.toNat
  else '\x5c' :: 'U' :: hexDigits 8 c.toNat

/-- How a character is written between two marks. -/
def escape (mark c : Char) : List Char :=
  if c = mark ∨ c = '\x5c' then ['\x5c', c]
  else if c = '\n' then ['\x5c', 'n']
  else if c = '\r' then ['\x5c', 'r']
  else if c = '\t' then ['\x5c', 't']
  else if isUnprintable c then byCodePoint c
  else [c]

/-- The mark around a text. -/
def mark (cs : List Char) : Char :=
  if '\x27' ∈ cs ∧ '\x22' ∉ cs then '\x22' else '\x27'

/-- The text between the marks. -/
def body (cs : List Char) : List Char := cs.flatMap (escape (mark cs))

/-- The quoted form of a text. -/
def chars (cs : List Char) : List Char := mark cs :: body cs ++ [mark cs]

end Quoted

/-- The quoted form of a string. -/
def quote (s : String) : String := String.ofList (Quoted.chars s.toList)

/-- The quoted form of a character, less its two marks. -/
def quoteBare (c : Char) : String := String.ofList (Quoted.body [c])

end Packrat
