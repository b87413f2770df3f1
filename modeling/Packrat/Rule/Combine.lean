import Packrat.Rule.Basic
set_option autoImplicit false
set_option relaxedAutoImplicit false

/-!
# Combining rules

Grammars are written with a few functions that keep rules flat: a sequence inside a sequence is
the longer sequence, and the same holds of choices. A single part is no sequence at all. Text
stands for the rule that matches it, and the identity of a named rule for a reference to it.

## Main definitions

* `Packrat.Rule.seq`, `Packrat.Rule.alt` — flat sequences and choices.
* `Packrat.Rule.opt`, `Packrat.Rule.oneOrMore`, `Packrat.Rule.zeroOrMore`,
  `Packrat.Rule.present`, `Packrat.Rule.absent`, `Packrat.Rule.captured`, `Packrat.Rule.built`,
  `Packrat.Rule.bound` — the other forms, each around a sequence.
-/

namespace Packrat

namespace Rule

variable {ν α : Type}

/-- A text stands for the literal of it. -/
instance : Coe String (Rule ν α) := ⟨.literal⟩

/-- A name stands for the rule of that name. -/
instance : Coe ν (Rule ν α) := ⟨.named⟩

/-- The parts that a rule gives to a sequence around it. -/
def sequents : Rule ν α → List (Rule ν α)
  | .sequence rules => rules
  | rule => [rule]

/-- The parts that a rule gives to a choice around it. -/
def alternatives : Rule ν α → List (Rule ν α)
  | .choice rules => rules
  | rule => [rule]

/-- The rules one behind the other. -/
def seq (rules : List (Rule ν α)) : Rule ν α :=
  match rules.flatMap sequents with
  | [rule] => rule
  | parts => .sequence parts

/-- The first of the rules that matches. -/
def alt (rules : List (Rule ν α)) : Rule ν α :=
  match rules.flatMap alternatives with
  | [rule] => rule
  | parts => .choice parts

/-- The rules one behind the other, or nothing. -/
def opt (rules : List (Rule ν α)) : Rule ν α := .optional (seq rules)

/-- The rules one behind the other, at least once. -/
def oneOrMore (rules : List (Rule ν α)) : Rule ν α := .repetition (seq rules) 1 none

/-- The rules one behind the other, any number of times. -/
def zeroOrMore (rules : List (Rule ν α)) : Rule ν α := .repetition (seq rules) 0 none

/-- Nothing, where the rules would match one behind the other. -/
def present (rules : List (Rule ν α)) : Rule ν α := .lookahead false (seq rules)

/-- Nothing, where the rules would not match one behind the other. -/
def absent (rules : List (Rule ν α)) : Rule ν α := .lookahead true (seq rules)

/-- The rules one behind the other, with a name for what they produce. -/
def captured (name : String) (rules : List (Rule ν α)) : Rule ν α := .capture name (seq rules)

/-- The rules one behind the other, with a value built out of what they produce. -/
def built (builder : Builder α) (rules : List (Rule ν α)) : Rule ν α :=
  .build builder (seq rules)

/-- The rules one behind the other, with their text bound to a name. -/
def bound (name : String) (rules : List (Rule ν α)) : Rule ν α := .bind name (seq rules)

end Rule

end Packrat
