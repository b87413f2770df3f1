import Packrat.Matching.Apply
import Packrat.Matching.Shift
import Packrat.Parsing.Failure
set_option autoImplicit false
set_option relaxedAutoImplicit false

/-!
# Sessions

A parse applies one rule at the beginning of a text. In a session, rules are applied and failures
are noted one after the other at any positions, in one state that all of them share.

The positions of a session are integers. A negative one lies in front of the text and stands for a
place of `Packrat.Text.readingFrom`; how far in front the places have to start shows only when a
rule is applied there, and the state moves along. Failures in front of the text are never the
furthest.

## Main definitions

* `Packrat.Session` — a text and the state of a session over it.
* `Packrat.Session.apply`, `Packrat.Session.fail`, `Packrat.Session.hush` — what is done in a
  session.
* `Packrat.Session.failure`, `Packrat.Session.tooDeep`, `Packrat.Session.remembered`,
  `Packrat.Session.locate` — what is asked in a session.

## Main results

* `Packrat.Session.apply_natCast` — without negative positions, sessions apply rules as parses do.
-/

namespace Packrat

/-- A text and the state of a session over it. -/
structure Session (ν α : Type) [DecidableEq ν] where
  text : Text
  /-- How far in front of the text the places start. -/
  lead : Nat := 0
  /-- The state, by places. -/
  run : Run ν α

namespace Session

variable {ν α : Type} [DecidableEq ν]

/-- A session in which nothing has been done. -/
def start (text : Text) (memoize : Bool) : Session ν α := { text, run := .fresh memoize false }

/-- The place of a position. -/
def place (s : Session ν α) (position : Int) : Nat := (position + s.lead).toNat

/-- The position of a place. -/
def position (s : Session ν α) (place : Nat) : Int := place - s.lead

/-- The same session with places that start at the given position, if that is not a place yet. -/
def reach (s : Session ν α) (position : Int) : Session ν α :=
  if 0 ≤ position + s.lead then s
  else
    let more := (-(position + s.lead)).toNat
    { s with lead := s.lead + more, run := s.run.shift more }

/-- The furthest failure, by its position in the text. -/
def frontier (s : Session ν α) : Frontier :=
  { s.run.frontier with position := s.run.frontier.position - s.lead }

/-- Notes that something was missing at a position. -/
def fail (s : Session ν α) (position : Int) (description : String) : Session ν α :=
  if 0 ≤ position then { s with run := s.run.fail (s.place position) description } else s

/-- Changes how many rules around want failures kept quiet. -/
def hush (s : Session ν α) (amount : Int) : Session ν α := { s with run := s.run.hush amount }

/-- Applies a rule at a position. A match ends at a place of the session behind it. -/
def apply (s : Session ν α) (g : Grammar ν α) (limit : Nat) (rule : Rule ν α) (position : Int)
    (scope : Scope) : Outcome α (Match α) × Session ν α :=
  let s := s.reach position
  let (outcome, run) :=
    g.applyBy (s.text.readingFrom s.lead) limit rule (s.place position) scope s.run
  (outcome, { s with run := run })

/-- The report of a failure, if a start rule matched up to the given stop, or did not match. -/
def failure (s : Session ν α) (stop : Option Int) : Failure :=
  { s.run with frontier := s.frontier }.failure s.text <|
    stop.bind fun stop => if 0 ≤ stop then some stop.toNat else none

/-- The report that rules were nested too deep. -/
def tooDeep (s : Session ν α) : Failure :=
  { s.run with frontier := s.frontier }.tooDeep s.text

/-- What is remembered, if anything is: a named rule, its position, whether it was kept quiet, and
where its match ends, if it did match. -/
def remembered (s : Session ν α) : Option (List (ν × Int × Bool × Option Int)) :=
  s.run.memo.map fun memo => memo.toList.map fun (key, result) =>
    (key.name, s.position key.position, key.isQuiet, result.map fun e => s.position e.stop)

/-- The line and the column of a position. In front of the text columns are negative. -/
def locate (s : Session ν α) (position : Int) : Nat × Int :=
  if 0 ≤ position then
    let location := s.text.locate position.toNat
    (location.line, location.column)
  else (1, position)

/-- As long as the places are the positions of the text, a rule is applied as in a parse. -/
theorem apply_natCast (s : Session ν α) (h : s.lead = 0) (g : Grammar ν α) (limit : Nat)
    (rule : Rule ν α) (position : Nat) (scope : Scope) :
    s.apply g limit rule position scope =
      let (outcome, run) := g.apply s.text limit rule position scope s.run
      (outcome, { s with run := run }) := by
  simp [apply, reach, place, h, Text.readingFrom_zero, Grammar.apply]

end Session

end Packrat
