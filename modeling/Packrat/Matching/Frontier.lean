import Packrat.Text.Sorted
set_option autoImplicit false
set_option relaxedAutoImplicit false

/-!
# The furthest failure

While a text is matched, rules fail all the time, and most failures mean nothing. What is reported
in the end is the furthest position at which something was missing, and everything that would have
been accepted there.

## Main definitions

* `Packrat.Frontier` — the furthest position and what was missing there.
* `Packrat.Frontier.note` — takes one more failure into account.
-/

namespace Packrat

/-- The furthest position at which something was missing, and what it was. -/
structure Frontier where
  position : Nat := 0
  /-- Descriptions in strictly increasing order. -/
  expected : List String := []
  deriving DecidableEq, Repr

/-- Takes into account that something was missing at a position. -/
def Frontier.note (f : Frontier) (position : Nat) (description : String) : Frontier :=
  if f.position < position then ⟨position, [description]⟩
  else if position = f.position then ⟨position, insertSorted description f.expected⟩
  else f

end Packrat
