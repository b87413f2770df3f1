import Packrat.Matching.Frontier
import Packrat.Matching.Memo
import Packrat.Matching.Trace
set_option autoImplicit false
set_option relaxedAutoImplicit false

/-!
# The state of a parse

Rules and grammars never change. What does change while a text is matched is a *run*: the furthest
failure, how many of the rules around want their failures kept quiet, how many named rules are
around, what is remembered, and the trace.

## Main definitions

* `Packrat.Run` — the state.
* `Packrat.Run.fail`, `Packrat.Run.record`, `Packrat.Run.remembered?`, `Packrat.Run.remember` — what
  matching does to it.
-/

namespace Packrat

/-- What changes while a text is matched. -/
structure Run (ν α : Type) [DecidableEq ν] where
  /-- The furthest failure. -/
  frontier : Frontier := {}
  /-- The number of rules around that want failures kept quiet. -/
  quiet : Int := 0
  /-- The number of named rules around. -/
  depth : Nat := 0
  /-- What is remembered of named rules, if anything is. -/
  memo : Option (Memo ν α) := some {}
  /-- The events so far, the latest first, if they are traced. -/
  trace : Option (List (Event ν)) := none

namespace Run

variable {ν α : Type} [DecidableEq ν]

/-- The state before anything is matched. -/
def fresh (memoize tracing : Bool) : Run ν α where
  memo := if memoize then some {} else none
  trace := if tracing then some [] else none

/-- Notes that something was missing at a position, unless failures are kept quiet. -/
def fail (run : Run ν α) (position : Nat) (description : String) : Run ν α :=
  if run.quiet = 0 then { run with frontier := run.frontier.note position description } else run

/-- Adds an event to the trace, if there is one. -/
def record (run : Run ν α) (event : Event ν) : Run ν α :=
  match run.trace with
  | none => run
  | some events => { run with trace := some (event :: events) }

/-- Changes how many rules around want failures kept quiet. -/
def hush (run : Run ν α) (amount : Int) : Run ν α := { run with quiet := run.quiet + amount }

/-- What a named rule at a position is remembered by. -/
def key (run : Run ν α) (name : ν) (position : Nat) : Memo.Key ν :=
  ⟨name, position, decide (0 < run.quiet)⟩

/-- The remembered result, if results are remembered and this one is. -/
def remembered? (run : Run ν α) (key : Memo.Key ν) : Option (Option (Ending α)) :=
  run.memo.bind (·.find? key)

/-- Remembers a result, if results are remembered. -/
def remember (run : Run ν α) (key : Memo.Key ν) (result : Option (Ending α)) : Run ν α :=
  { run with memo := run.memo.map (·.insert key result) }

/-- The events so far, in order. -/
def events (run : Run ν α) : List (Event ν) := (run.trace.getD []).reverse

end Run

end Packrat
