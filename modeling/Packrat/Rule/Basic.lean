import Packrat.Rule.CharSet
import Packrat.Value.Builder
set_option autoImplicit false
set_option relaxedAutoImplicit false

/-!
# Rules

A rule describes pieces of text. A grammar is a set of named rules that may refer to each other in
any way; `ν` is the type by which they are told apart and `α` is the type of the objects that the
rules build. A rule is plain data, so a reference to a named rule holds no more than its identity.

Choice is ordered: the first alternative that matches is taken. Repetition takes all it can get and
never gives anything back.

## Main definitions

* `Packrat.Rule` — the rules.
* `Packrat.Rule.children` — the rules directly inside a rule.
-/

namespace Packrat

/-- A description of pieces of text. -/
inductive Rule (ν α : Type) where
  /-- Exactly the given text. -/
  | literal (text : String)
  /-- One character of a set. -/
  | charSet (set : CharSet)
  /-- Any one character. -/
  | any
  /-- Nothing, at the start of the text or behind a line break. -/
  | lineStart
  /-- The given rules, one behind the other. -/
  | sequence (rules : List (Rule ν α))
  /-- The first of the given rules that matches. -/
  | choice (rules : List (Rule ν α))
  /-- The rule over and over, as often as the bounds allow. -/
  | repetition (rule : Rule ν α) (least : Int) (most : Option Int)
  /-- The rule, or nothing if it does not match. -/
  | optional (rule : Rule ν α)
  /-- Nothing, if the rule would match; or, if negative, if it would not. -/
  | lookahead (negative : Bool) (rule : Rule ν α)
  /-- The rule, with a name for the value it produces or else for its text. -/
  | capture (name : String) (rule : Rule ν α)
  /-- The rule, with a value built out of what it produces. -/
  | build (builder : Builder α) (rule : Rule ν α)
  /-- The rule, with its text bound to a name for the rest of the named rule around it. -/
  | bind (name : String) (rule : Rule ν α)
  /-- The text that is bound to a name. -/
  | backref (name : String)
  /-- A named rule of the grammar. -/
  | named (name : ν)

namespace Rule

variable {ν α : Type}

/-- The rules directly inside a rule. A named rule is opaque: its body is not inside it. -/
def children : Rule ν α → List (Rule ν α)
  | .sequence rules | .choice rules => rules
  | .repetition rule _ _ | .optional rule | .lookahead _ rule | .capture _ rule | .build _ rule
  | .bind _ rule => [rule]
  | _ => []

end Rule

end Packrat
