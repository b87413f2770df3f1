import Packrat.Rule.CharSetArgument
import Packrat.Rule.Combine
import Packrat.Rule.Notation
set_option autoImplicit false
set_option relaxedAutoImplicit false

/-!
# Rule expressions

A rule expression is a rule as its author wrote it, before anybody checked that it makes sense.
Text may stand for the rule that matches it, but nothing else that is not a rule may; an operator
makes a rule only if one of its operands is one; the bounds of a repetition may be the wrong way
round; the ends of a span may not be characters. Checking an
expression gives the rule or the first mistake. The parts of an expression are checked in order
before the expression around them is.

## Main definitions

* `Packrat.Form` — what is put around the parts of an expression.
* `Packrat.Operator` — what is put between two expressions.
* `Packrat.Expression` — the expressions.
* `Packrat.Expression.check` — the rule that an expression writes.
-/

namespace Packrat

variable {ν α : Type}

/-- A form that is put around the parts of an expression. -/
inductive Form (α : Type) where
  | sequence
  | choice
  | optional
  | oneOrMore
  | zeroOrMore
  | present
  | absent
  | capture (name : String)
  | bind (name : String)
  | build (builder : Builder α)

/-- The rule that a form makes of its parts. -/
def Form.combine : Form α → List (Rule ν α) → Rule ν α
  | .sequence => Rule.seq
  | .choice => Rule.alt
  | .optional => Rule.opt
  | .oneOrMore => Rule.oneOrMore
  | .zeroOrMore => Rule.zeroOrMore
  | .present => Rule.present
  | .absent => Rule.absent
  | .capture name => Rule.captured name
  | .bind name => Rule.bound name
  | .build builder => Rule.built builder

/-- An operator that is put between two expressions. -/
inductive Operator where
  | plus
  | bar
  deriving DecidableEq, Repr

/-- How an operator is written. -/
def Operator.sign : Operator → String
  | .plus => "+"
  | .bar => "|"

/-- The form that an operator stands for between rules. -/
def Operator.form : Operator → Form α
  | .plus => .sequence
  | .bar => .choice

/-- A rule as its author wrote it. -/
inductive Expression (ν α : Type) where
  | text (text : String)
  /-- Something that is neither a rule nor text, by how it is shown and by its type. -/
  | other (shown type : String)
  | rule (rule : Rule ν α)
  | charSet (arguments : List CharSet.Argument)
  | form (form : Form α) (parts : List (Expression ν α))
  | operator (operator : Operator) (left right : Expression ν α)
  | repetition (part : Expression ν α) (least : Int) (most : Option Int)

/-- The empty text is an expression. -/
instance : Inhabited (Expression ν α) := ⟨.text ""⟩

namespace Expression

/-- What an expression stands for before it has to be a rule. -/
inductive Operand (ν α : Type) where
  | text (text : String)
  | other (shown type : String)
  | rule (rule : Rule ν α)

/-- The rule that an operand stands for. -/
def Operand.toRule : Operand ν α → Except RuleError (Rule ν α)
  | .text s => .ok (.literal s)
  | .other shown _ => .error (.notARule shown)
  | .rule r => .ok r

/-- How an operand is shown where it should be repeated: text without quotation marks. -/
def Operand.render (nameOf : ν → String) : Operand ν α → String
  | .text s => s
  | .other shown _ => shown
  | .rule r => r.render nameOf

/-- The name of the type of an operand. -/
def Operand.type : Operand ν α → String
  | .text _ => "str"
  | .other _ type => type
  | .rule _ => "rule"

/-- What an operator makes of its operands: a rule if one of them is a rule, and text if two texts
are added. -/
def Operand.join (o : Operator) : Operand ν α → Operand ν α → Except RuleError (Operand ν α)
  | .rule r, right => do .ok (.rule (o.form.combine [r, ← right.toRule]))
  | left, .rule r => do .ok (.rule (o.form.combine [← left.toRule, r]))
  | .text s, right =>
    match o, right with
    | .plus, .text t => .ok (.text (s ++ t))
    | .plus, right => .error (.notAppended right.type)
    | .bar, right => .error (.noOperator o.sign "str" right.type)
  | .other _ type, right => .error (.noOperator o.sign type right.type)

/-- What an expression stands for, once all of its parts are checked. -/
def operand (nameOf : ν → String) : Expression ν α → Except RuleError (Operand ν α)
  | .text s => .ok (.text s)
  | .other shown type => .ok (.other shown type)
  | .rule r => .ok (.rule r)
  | .charSet args => do .ok (.rule (.charSet (← CharSet.ofArguments args)))
  | .form f parts => do
    let rules ← (← operands parts).mapM Operand.toRule
    .ok (.rule (f.combine rules))
  | .operator o left right => do
    let first ← left.operand nameOf
    let second ← right.operand nameOf
    Operand.join o first second
  | .repetition part least most => do
    let repeated ← part.operand nameOf
    match most with
    | some bound =>
      if bound < least then .error (.boundsReversed (repeated.render nameOf) least bound)
      else .ok (.rule (.repetition (← repeated.toRule) least most))
    | none => .ok (.rule (.repetition (← repeated.toRule) least most))
where
  /-- What the parts of an expression stand for. -/
  operands : List (Expression ν α) → Except RuleError (List (Operand ν α))
    | [] => .ok []
    | part :: parts => do
      let first ← part.operand nameOf
      let others ← operands parts
      .ok (first :: others)

/-- The rule that an expression writes. -/
def check (nameOf : ν → String) (e : Expression ν α) : Except RuleError (Rule ν α) := do
  (← e.operand nameOf).toRule

end Expression

end Packrat
