set_option autoImplicit false
set_option relaxedAutoImplicit false

/-!
# Traces

A trace records when a named rule is entered and when it is left, and how. Each event carries the
number of named rules around it.

## Main definitions

* `Packrat.Event` — a named rule is entered or left.
* `Packrat.Event.render` — an event as an indented line.
-/

namespace Packrat

/-- Something that happens to a named rule while a text is matched. -/
inductive Event (ν : Type) where
  /-- The rule is about to be matched at a position. -/
  | enter (depth : Nat) (name : ν) (position : Nat)
  /-- The rule matched from a position to a stop, or did not match there. -/
  | leave (depth : Nat) (name : ν) (position : Nat) (stop : Option Nat)
  deriving DecidableEq, Repr

namespace Event

variable {ν : Type}

/-- The number of named rules around an event. -/
def depth : Event ν → Nat
  | .enter depth _ _ | .leave depth _ _ _ => depth

/-- What a line says about an event, without the indentation. -/
def body (nameOf : ν → String) : Event ν → String
  | .enter _ name position => nameOf name ++ " @ " ++ toString position
  | .leave _ name position none => nameOf name ++ " @ " ++ toString position ++ " fail"
  | .leave _ name position (some stop) =>
    nameOf name ++ " @ " ++ toString position ++ " -> " ++ toString stop

/-- An event as a line, with two spaces for every named rule around it. -/
def render (nameOf : ν → String) (e : Event ν) : String :=
  String.ofList (List.replicate (2 * e.depth) ' ') ++ e.body nameOf

end Event

end Packrat
