import Packrat.Matching.Run
import Packrat.Text.Location
set_option autoImplicit false
set_option relaxedAutoImplicit false

/-!
# Failures

A text that a rule does not match as a whole is reported by one position: the furthest at which
something was missing, or the end of what the rule did match if that lies behind it. Where the rule
could end but the text goes on, the end of input was expected too.

## Main definitions

* `Packrat.Failure` — a report.
* `Packrat.Run.failure` — the report of a parse that ended in the given state.
* `Packrat.Failure.message`, `Packrat.Failure.render` — the wording.
-/

namespace Packrat

/-- What is wrong with a text. -/
inductive Failure.Reason where
  /-- This character, or the end of the text, stands where something else was expected. -/
  | unexpected (found : Option Char)
  /-- Understanding the text would take deeper nesting than the limit allows. -/
  | tooDeep
  deriving DecidableEq, Repr

/-- A report of why a text could not be parsed. -/
structure Failure where
  reason : Failure.Reason
  position : Nat
  location : Location
  /-- What would have been accepted at the position, in strictly increasing order. -/
  expected : List String
  deriving DecidableEq, Repr

namespace Failure

/-- What was found, as a message puts it. -/
def found : Option Char → String
  | none => "end of file"
  | some c => quote (String.singleton c)

/-- The wording of a failure. -/
def message (f : Failure) : String :=
  match f.reason with
  | .tooDeep => "Syntax Error: Nesting too deep"
  | .unexpected c =>
    "Syntax Error: Unexpected " ++ found c ++
      (if f.expected.isEmpty then "" else ". Expected one of: " ++ ", ".intercalate f.expected)

/-- The wording of a failure behind its line and column. -/
def render (f : Failure) : String :=
  toString f.location.line ++ ":" ++ toString f.location.column ++ ": " ++ f.message

end Failure

namespace Run

variable {ν α : Type} [DecidableEq ν]

/-- The frontier with the end of the start rule's match taken into account, if there was one: the
text should have ended there. -/
def lastFrontier (run : Run ν α) : Option Nat → Frontier
  | none => run.frontier
  | some stop => run.frontier.note stop "end of input"

/-- The report of a parse whose start rule matched up to the given stop, or did not match. -/
def failure (run : Run ν α) (text : Text) (stop : Option Nat) : Failure :=
  let f := run.lastFrontier stop
  ⟨.unexpected (text.char? f.position), f.position, text.locate f.position, f.expected⟩

/-- The report of a parse that exceeded the limit, at the furthest position it reached. -/
def tooDeep (run : Run ν α) (text : Text) : Failure :=
  ⟨.tooDeep, run.frontier.position, text.locate run.frontier.position, []⟩

end Run

end Packrat
