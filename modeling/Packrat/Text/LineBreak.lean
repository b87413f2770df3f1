set_option autoImplicit false
set_option relaxedAutoImplicit false

/-!
# Line breaks of a file

A file may break its lines by a carriage return, a line feed or both together. Once read, a text
breaks them by line feeds alone.

## Main definitions

* `Packrat.unifyLineBreaks` — every kind of line break becomes a line feed.
-/

namespace Packrat

/-- Turns every line break into a single line feed; a carriage return and the line feed after it
are one line break. -/
def unifyLineBreaks : List Char → List Char
  | [] => []
  | '\r' :: '\n' :: cs => '\n' :: unifyLineBreaks cs
  | '\r' :: cs => '\n' :: unifyLineBreaks cs
  | c :: cs => c :: unifyLineBreaks cs

end Packrat
