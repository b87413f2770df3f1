import Packrat.Grammar.Basic
set_option autoImplicit false
set_option relaxedAutoImplicit false

/-!
# Which rules produce values

A rule can produce a value if a capture or a builder can be reached from it through the parts of
rules and the bodies of named rules, without going through a lookahead. The search reads rules
from left to right, enters the body of a named rule where it is met for the first time, and ends
with the first capture or builder; a body that is never entered need not even be a rule.

## Main definitions

* `Packrat.Rule.yields` — the captures, builders and named rules of a rule, from left to right.
* `Packrat.Grammar.produces` — whether matching a rule can produce a value.
-/

namespace Packrat

/-- A place in a rule where a value may come from. -/
inductive Yield (ν : Type) where
  /-- A capture or a builder. -/
  | value
  /-- A named rule. -/
  | rule (name : ν)

variable {ν α : Type}

/-- The places in a rule where a value may come from, from left to right. -/
def Rule.yields : Rule ν α → List (Yield ν)
  | .capture _ _ | .build _ _ => [.value]
  | .named x => [.rule x]
  | .sequence rules | .choice rules => partYields rules
  | .repetition rule _ _ | .optional rule | .bind _ rule => rule.yields
  | .literal _ | .charSet _ | .any | .lineStart | .lookahead _ _ | .backref _ => []
where
  /-- The places in the parts of a sequence or choice. -/
  partYields : List (Rule ν α) → List (Yield ν)
    | [] => []
    | rule :: rules => rule.yields ++ partYields rules

/-- Whether there is nothing left to find out about a place once some named rules were entered. -/
def Yield.isKnown [DecidableEq ν] (entered : List ν) : Yield ν → Bool
  | .value => false
  | .rule x => decide (x ∈ entered)

namespace Grammar

variable [DecidableEq ν]

/-- Searches the pending places in order, entering at most so many named rules. -/
def producesFrom (g : Grammar ν α) : Nat → List ν → List (Yield ν) → Except RuleError Bool
  | 0, _, _ => .ok false
  | budget + 1, entered, pending =>
    match pending.dropWhile (Yield.isKnown entered) with
    | [] => .ok false
    | .value :: _ => .ok true
    | .rule x :: rest => do
      let body ← (g.define x).body
      g.producesFrom budget (x :: entered) (body.yields ++ rest)

/-- Whether matching a rule can produce a value, as opposed to just passing over text. -/
def produces (g : Grammar ν α) (rule : Rule ν α) : Except RuleError Bool :=
  g.producesFrom (g.rules.length + 1) [] rule.yields

end Grammar

end Packrat
