import Packrat.Rule.Basic
set_option autoImplicit false
set_option relaxedAutoImplicit false

/-!
# The notation of rules

Rules are shown in the usual notation of parsing expressions: sequence by juxtaposition, choice by
`/`, repetition by `*`, `+` or bounds in braces, option by `?`, lookahead by `&` and `!`. A capture
is `name:rule`, a binding `name=rule`, a reference to a binding `$name`, and a builder stands behind
`->`. Sequences, choices and built rules stand in parentheses inside another rule.

## Main definitions

* `Packrat.Rule.render` — the notation of a rule, given the names of the named rules.
-/

namespace Packrat

namespace Rule

variable {ν α : Type}

/-- Whether a rule needs parentheses inside another one. -/
def isCompound : Rule ν α → Bool
  | .sequence _ | .choice _ | .build _ _ => true
  | _ => false

/-- The notation of the bounds of a repetition. -/
def renderBounds (least : Int) : Option Int → String
  | none =>
    if least = 0 then "*"
    else if least = 1 then "+"
    else "\x7b" ++ toString least ++ ",\x7d"
  | some most => "\x7b" ++ toString least ++ "," ++ toString most ++ "\x7d"

/-- Puts parentheses around a notation if asked to. -/
def parenthesise (isCompound : Bool) (shown : String) : String :=
  if isCompound then "(" ++ shown ++ ")" else shown

/-- The notation of a rule. -/
def render (nameOf : ν → String) : Rule ν α → String
  | .literal s => quote s
  | .charSet set => set.render
  | .any => "."
  | .lineStart => "^"
  | .sequence rules => " ".intercalate (renderParts rules)
  | .choice rules => " / ".intercalate (renderParts rules)
  | .repetition rule least most =>
    parenthesise rule.isCompound (rule.render nameOf) ++ renderBounds least most
  | .optional rule => parenthesise rule.isCompound (rule.render nameOf) ++ "?"
  | .lookahead negative rule =>
    (if negative then "!" else "&") ++ parenthesise rule.isCompound (rule.render nameOf)
  | .capture name rule => name ++ ":" ++ parenthesise rule.isCompound (rule.render nameOf)
  | .build builder rule =>
    parenthesise rule.isCompound (rule.render nameOf) ++ " -> " ++ builder.name
  | .bind name rule => name ++ "=" ++ parenthesise rule.isCompound (rule.render nameOf)
  | .backref name => "$" ++ name
  | .named name => nameOf name
where
  /-- The notations of the parts of a sequence or choice. -/
  renderParts : List (Rule ν α) → List String
    | [] => []
    | rule :: rules =>
      parenthesise rule.isCompound (rule.render nameOf) :: renderParts rules

end Rule

end Packrat
