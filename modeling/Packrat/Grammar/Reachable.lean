import Packrat.Text.Sorted
import Packrat.Grammar.Basic
set_option autoImplicit false
set_option relaxedAutoImplicit false

/-!
# The rules that a start rule can reach

A start rule uses the named rules in it, those in their bodies, and so on. They make up its own
grammar, in which a name must stand for one rule only. The search enters the body of a named rule
where it is met for the first time, the last one of a rule first, and ends with the first name that
a rule before had already or with the first body that is not a rule.

## Main definitions

* `Packrat.Rule.references` — the named rules in a rule, from left to right.
* `Packrat.Grammar.reachable` — the named rules that a rule can reach.
* `Packrat.Grammar.reachableNames`, `Packrat.Grammar.reachable?` — their names, and the one of a
  name.
-/

namespace Packrat

variable {ν α : Type}

/-- The named rules in a rule, from left to right. -/
def Rule.references : Rule ν α → List ν
  | .named x => [x]
  | .sequence rules | .choice rules => partReferences rules
  | .repetition rule _ _ | .optional rule | .lookahead _ rule | .capture _ rule | .build _ rule
  | .bind _ rule => rule.references
  | .literal _ | .charSet _ | .any | .lineStart | .backref _ => []
where
  /-- The named rules in the parts of a sequence or choice. -/
  partReferences : List (Rule ν α) → List ν
    | [] => []
    | rule :: rules => rule.references ++ partReferences rules

/-- Why the rules that a start rule reaches are no grammar. -/
inductive ReachError where
  /-- Two of the rules have this name. -/
  | duplicateName (name : String)
  /-- The body of one of the rules is not a rule. -/
  | badRule (mistake : RuleError)
  deriving DecidableEq, Repr

/-- The wording of the error. -/
def ReachError.message : ReachError → String
  | .duplicateName name => "More than one rule is named '" ++ name ++ "'"
  | .badRule mistake => mistake.message

namespace Grammar

variable [DecidableEq ν]

/-- Adds the named rules that can be reached from the pending ones to those found already, entering
at most so many bodies. The rule found last comes first. -/
def reachFrom (g : Grammar ν α) : Nat → List ν → List ν → Except ReachError (List ν)
  | 0, found, _ => .ok found
  | budget + 1, found, pending =>
    match pending.dropWhile (fun x => decide (x ∈ found)) with
    | [] => .ok found
    | x :: rest =>
      if found.any fun y => (g.define y).name == (g.define x).name then
        .error (.duplicateName (g.define x).name)
      else
        match (g.define x).body with
        | .error mistake => .error (.badRule mistake)
        | .ok body => g.reachFrom budget (x :: found) (body.references.reverse ++ rest)

/-- The named rules that a rule can reach. -/
def reachable (g : Grammar ν α) (start : Rule ν α) : Except ReachError (List ν) :=
  g.reachFrom (g.rules.length + 1) [] start.references.reverse

/-- The names of the reachable rules, in order. -/
def reachableNames (g : Grammar ν α) (start : Rule ν α) : Except ReachError (List String) := do
  let found ← g.reachable start
  .ok (sorted (found.map fun x => (g.define x).name))

/-- The reachable rule of the given name. -/
def reachable? (g : Grammar ν α) (start : Rule ν α) (name : String) :
    Except ReachError (Option ν) := do
  let found ← g.reachable start
  .ok (found.find? fun x => (g.define x).name == name)

end Grammar

end Packrat
