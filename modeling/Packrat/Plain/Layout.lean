import Packrat.Plain.Basic
import Packrat.Text.Quoted
set_option autoImplicit false
set_option relaxedAutoImplicit false

/-!
# Plain data as text

Plain data is written in JSON, with every item and entry on a line of its own and two spaces of
indentation for every list or record around it. Only printable ASCII characters are written as they
are; all others are given by UTF-16 units in hexadecimal digits.

## Main definitions

* `Packrat.Plain.render` — plain data as text.
-/

namespace Packrat.Plain

/-- A UTF-16 unit by its number. -/
def unit (n : Nat) : List Char := '\x5c' :: 'u' :: Quoted.hexDigits 4 n

/-- How a character is written inside a string. -/
def escape (c : Char) : List Char :=
  if c = '\x22' ∨ c = '\x5c' then ['\x5c', c]
  else if c = '\n' then ['\x5c', 'n']
  else if c = '\r' then ['\x5c', 'r']
  else if c = '\t' then ['\x5c', 't']
  else if c = '\x08' then ['\x5c', 'b']
  else if c = '\x0c' then ['\x5c', 'f']
  else if 0x20 ≤ c.toNat ∧ c.toNat ≤ 0x7e then [c]
  else if c.toNat < 0x10000 then unit c.toNat
  else unit (0xd800 + (c.toNat - 0x10000) / 0x400) ++ unit (0xdc00 + (c.toNat - 0x10000) % 0x400)

/-- A string between its quotation marks. -/
def renderText (s : String) : String :=
  String.ofList ('\x22' :: s.toList.flatMap escape ++ ['\x22'])

/-- A new line at the given level of indentation. -/
def newline (level : Nat) : String := String.ofList ('\n' :: List.replicate (2 * level) ' ')

/-- Lines between two brackets, at the given level of indentation; nothing at all between the
brackets is written without a line. -/
def bracket (level : Nat) (opening closing : String) : List String → String
  | [] => opening ++ closing
  | lines =>
    opening ++ newline (level + 1) ++ ("," ++ newline (level + 1)).intercalate lines
      ++ newline level ++ closing

/-- Plain data as text, at the given level of indentation. -/
def renderAt (level : Nat) : Plain → String
  | .null => "null"
  | .text s => renderText s
  | .list items => bracket level "[" "]" (renderItems (level + 1) items)
  | .record entries => bracket level "\x7b" "\x7d" (renderEntries (level + 1) entries)
where
  /-- The items of a list as text. -/
  renderItems (level : Nat) : List Plain → List String
    | [] => []
    | p :: ps => p.renderAt level :: renderItems level ps
  /-- The entries of a record as text. -/
  renderEntries (level : Nat) : List (String × Plain) → List String
    | [] => []
    | (key, p) :: ps => (renderText key ++ ": " ++ p.renderAt level) :: renderEntries level ps

/-- Plain data as text. -/
def render (p : Plain) : String := p.renderAt 0

end Packrat.Plain
