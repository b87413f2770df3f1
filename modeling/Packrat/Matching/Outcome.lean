import Packrat.Grammar.Basic
import Packrat.Value.Merge
set_option autoImplicit false
set_option relaxedAutoImplicit false

/-!
# Outcomes of matching

A rule that is applied at a position matches there or does not, or the whole parse stops: because
rules are nested deeper than the limit allows, or because the grammar turns out to be flawed.

## Main definitions

* `Packrat.Scope` — the texts bound to names.
* `Packrat.Match` — where a match ends, what it produced, and the scope behind it.
* `Packrat.Flaw`, `Packrat.Stop` — why a whole parse stops.
* `Packrat.Outcome` — one of the three ways in which matching ends.
-/

namespace Packrat

/-- The texts bound to names, the latest first. -/
abbrev Scope := List (String × String)

/-- How a named rule matched: its end and what it produced. -/
structure Ending (α : Type) where
  stop : Nat
  value : Option (Value α)

/-- How a rule matched: its end, what it produced, and the scope for what follows it. -/
structure Match (α : Type) extends Ending α where
  scope : Scope

/-- A mistake in the grammar that a parse comes upon. -/
inductive Flaw (α : Type) where
  /-- A reference to a name that nothing is bound to. -/
  | unbound (name : String)
  /-- A sequence that produces fields and other values. -/
  | mixture (values : Mixture α)
  /-- A rule whose definition is none. -/
  | badRule (mistake : RuleError)
  /-- A builder that does not take what was captured. -/
  | refused (refusal : Refusal)
  /-- A character that was asked for where there is none, neither in the text nor in front of it. -/
  | outsideTheText

/-- The wording of a flaw. -/
def Flaw.message {α : Type} [Inspect α] : Flaw α → String
  | .unbound name => "Nothing is bound to '" ++ name ++ "' here"
  | .mixture values => values.message
  | .badRule mistake => mistake.message
  | .refused refusal => refusal.message
  | .outsideTheText => "string index out of range"

/-- Why a whole parse stops before it has an answer. -/
inductive Stop (α : Type) where
  /-- Rules are nested deeper than the limit. -/
  | tooDeep
  /-- The grammar is flawed. -/
  | flaw (flaw : Flaw α)

/-- How matching ends. -/
inductive Outcome (α β : Type) where
  | matched (result : β)
  | unmatched
  | stopped (cause : Stop α)

end Packrat
