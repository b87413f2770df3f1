set_option autoImplicit false
set_option relaxedAutoImplicit false

/-!
# The phrases of a program

A phrase is a named rule of the grammar of programs. Each of them can be parsed on its own.

## Main definitions

* `Packrat.Program.Phrase` — the phrases.
* `Packrat.Program.Phrase.name`, `Packrat.Program.Phrase.errorName` — what they are called.
* `Packrat.Program.Phrase.all` — the list of all phrases.
-/

namespace Packrat.Program

/-- A named rule of the grammar of programs. -/
inductive Phrase where
  | program | statement | comment | expression | expressionTerminator
  | object | simpleObject | recursiveObject
  | nilLiteral | boolean | trueLiteral | falseLiteral
  | numeric | decimal | integer | sign | digit | digits
  | character | string | symbolString | singleQuotedString | doubleQuotedString | hereDoc
  | regularExpression
  | keyValuePair | range | hashLiteral | list
  | whitespace | whitespaces | optionalWhitespaces
  | space | spaces | optionalSpaces
  | eol | eols | endOfInput
  deriving DecidableEq, Repr

namespace Phrase

/-- The name of a phrase in notation, traces and reports. -/
def name : Phrase → String
  | .program => "program"
  | .statement => "statement"
  | .comment => "comment"
  | .expression => "expression"
  | .expressionTerminator => "expression_terminator"
  | .object => "object"
  | .simpleObject => "simple_object"
  | .recursiveObject => "recursive_object"
  | .nilLiteral => "nil_literal"
  | .boolean => "boolean"
  | .trueLiteral => "true_literal"
  | .falseLiteral => "false_literal"
  | .numeric => "numeric"
  | .decimal => "decimal"
  | .integer => "integer"
  | .sign => "sign"
  | .digit => "digit"
  | .digits => "digits"
  | .character => "character"
  | .string => "string"
  | .symbolString => "symbol_string"
  | .singleQuotedString => "single_quoted_string"
  | .doubleQuotedString => "double_quoted_string"
  | .hereDoc => "here_doc"
  | .regularExpression => "regular_expression"
  | .keyValuePair => "key_value_pair"
  | .range => "range"
  | .hashLiteral => "hash_literal"
  | .list => "list"
  | .whitespace => "whitespace"
  | .whitespaces => "whitespaces"
  | .optionalWhitespaces => "whitespaces?"
  | .space => "space"
  | .spaces => "spaces"
  | .optionalSpaces => "spaces?"
  | .eol => "eol"
  | .eols => "eols"
  | .endOfInput => "end_of_input"

/-- The name under which a whole phrase is reported as missing. -/
def errorName : Phrase → Option String
  | .digit => some "digit"
  | .eol => some "end of line"
  | .endOfInput => some "end of input"
  | _ => none

/-- All phrases. -/
def all : List Phrase :=
  [.program, .statement, .comment, .expression, .expressionTerminator, .object, .simpleObject,
    .recursiveObject, .nilLiteral, .boolean, .trueLiteral, .falseLiteral, .numeric, .decimal,
    .integer, .sign, .digit, .digits, .character, .string, .symbolString, .singleQuotedString,
    .doubleQuotedString, .hereDoc, .regularExpression, .keyValuePair, .range, .hashLiteral, .list,
    .whitespace, .whitespaces, .optionalWhitespaces, .space, .spaces, .optionalSpaces, .eol, .eols,
    .endOfInput]

/-- The list of phrases leaves none out. -/
theorem mem_all (p : Phrase) : p ∈ all := by
  cases p <;> simp [all]

/-- What a check of one phrase after the other shows is true of every phrase. -/
theorem eq_true_of_all {check : Phrase → Bool} (h : all.all check = true) (p : Phrase) :
    check p = true :=
  List.all_eq_true.1 h p (mem_all p)

/-- The phrase of the given name. -/
def ofName? (name : String) : Option Phrase := all.find? (·.name == name)

/-- Phrases are found by their names. -/
theorem ofName?_name (p : Phrase) : ofName? p.name = some p := by
  cases p <;> decide +kernel

end Phrase

end Packrat.Program
