import Packrat.Rule.Error
import Packrat.Rule.Notation
set_option autoImplicit false
set_option relaxedAutoImplicit false

/-!
# Grammars

A grammar gives every named rule a definition: the name that is shown, perhaps a name for error
messages, and the body. The body is a rule, or the mistake that its author made in writing it; such
a mistake only matters once the body is needed. A named rule that has a name for error messages is
reported under that name as a whole, instead of by the piece of it that did not match.

The type `ν` tells the named rules apart. It is finite, which the grammar shows by listing it, but
nothing says that two rules have different names.

## Main definitions

* `Packrat.Definition` — what a grammar knows about one named rule.
* `Packrat.Grammar` — the definitions of all named rules.
* `Packrat.Grammar.render` — the notation of a rule of the grammar.
-/

namespace Packrat

/-- What a grammar knows about one named rule. -/
structure Definition (ν α : Type) where
  /-- The name in notation, traces and reports. -/
  name : String
  /-- The name under which the whole rule is reported as missing. -/
  errorName : Option String := none
  /-- The rule that the name stands for. -/
  body : Except RuleError (Rule ν α)

/-- The definitions of finitely many named rules. -/
structure Grammar (ν α : Type) where
  /-- The named rules. -/
  rules : List ν
  /-- No named rule is left out. -/
  mem_rules : ∀ name, name ∈ rules
  /-- The definition of a named rule. -/
  define : ν → Definition ν α

namespace Grammar

variable {ν α : Type}

/-- The notation of a rule of the grammar. -/
def render (g : Grammar ν α) (rule : Rule ν α) : String := rule.render fun x => (g.define x).name

/-- The notation of the definition of a named rule. -/
def renderDefinition (g : Grammar ν α) (x : ν) : Except RuleError String := do
  let body ← (g.define x).body
  .ok ((g.define x).name ++ " <- " ++ g.render body)

end Grammar

end Packrat
