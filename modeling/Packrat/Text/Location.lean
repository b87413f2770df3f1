import Packrat.Text.Basic
set_option autoImplicit false
set_option relaxedAutoImplicit false

/-!
# Lines and columns

A report names a position by line and column. Only a line feed ends a line; lines are counted from
one and columns from zero, in characters. A position past the end lies on the last line.

## Main definitions

* `Packrat.Location` — a line and a column.
* `Packrat.Text.locate` — the location of a position.

## Main results

* `Packrat.Text.line_locate` — the line counts the line feeds in front of a position.
-/

namespace Packrat

/-- A line, counted from one, and a column, counted from zero. -/
structure Location where
  line : Nat
  column : Nat
  deriving DecidableEq, Repr

/-- The location that is reached by walking from a location over some characters. -/
def Location.walk (start : Location) : List Char → Location
  | [] => start
  | c :: cs =>
    if c = '\n' then walk ⟨start.line + 1, 0⟩ cs
    else walk ⟨start.line, start.column + 1⟩ cs

/-- The location of a position. -/
def Text.locate (t : Text) (position : Nat) : Location :=
  let reached := Location.walk ⟨1, 0⟩ (t.chars.toList.take position)
  ⟨reached.line, reached.column + (position - t.size)⟩

/-- Every line feed leads to one more line. -/
theorem Location.line_walk (start : Location) (cs : List Char) :
    (start.walk cs).line = start.line + cs.count '\n' := by
  induction cs generalizing start with
  | nil => simp [walk]
  | cons c cs ih =>
    by_cases h : c = '\n'
    · simp only [walk, h, if_pos, ih, List.count_cons_self]; omega
    · simp [walk, h, ih]

/-- The line of a position counts the line feeds in front of it. -/
theorem Text.line_locate (t : Text) (position : Nat) :
    (t.locate position).line = 1 + (t.chars.toList.take position).count '\n' := by
  simp [locate, Location.line_walk]

end Packrat
