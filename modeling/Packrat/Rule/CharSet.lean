import Packrat.Text.Quoted
set_option autoImplicit false
set_option relaxedAutoImplicit false

/-!
# Sets of characters

A set of characters is given by spans, each with a first and a last character. A span whose last
character comes before its first is empty.

## Main definitions

* `Packrat.CharSet` — a set, as the list of its spans.
* `Packrat.CharSet.contains` — membership.
* `Packrat.CharSet.render` — the notation of a set, between brackets.
-/

namespace Packrat

/-- The characters from a first to a last one, both included. -/
structure Span where
  first : Char
  last : Char
  deriving DecidableEq, Repr

namespace Span

/-- The span of a single character. -/
def single (c : Char) : Span := ⟨c, c⟩

/-- Whether a character lies in a span. -/
def contains (s : Span) (c : Char) : Bool := decide (s.first ≤ c ∧ c ≤ s.last)

/-- The notation of a span: its two ends, or the one character if they are the same. -/
def render (s : Span) : String :=
  if s.first = s.last then quoteBare s.first
  else quoteBare s.first ++ "-" ++ quoteBare s.last

end Span

/-- A set of characters. -/
structure CharSet where
  spans : List Span
  deriving DecidableEq, Repr

namespace CharSet

/-- The set of the given characters. -/
def ofChars (cs : List Char) : CharSet := ⟨cs.map .single⟩

/-- Whether a character is in a set. -/
def contains (set : CharSet) (c : Char) : Bool := set.spans.any (·.contains c)

/-- The notation of a set. -/
def render (set : CharSet) : String := "[" ++ String.join (set.spans.map Span.render) ++ "]"

end CharSet

end Packrat
