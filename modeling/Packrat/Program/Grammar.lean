import Packrat.Grammar.Basic
import Packrat.Program.Assembly
import Packrat.Program.Phrase
import Packrat.Rule.Combine
set_option autoImplicit false
set_option relaxedAutoImplicit false

/-!
# The grammar of programs

Order matters throughout: of several alternatives the first one that matches is taken, so wherever
one of them could match a beginning of another, the longer one comes first. Composite objects come
before simple ones, since each of them starts with something that is a complete simple object;
numbers with a point come before those without; a carriage return with a line feed comes before
the carriage return alone.

## Main definitions

* `Packrat.Program.body` — the rule that a phrase stands for.
* `Packrat.Program.grammar` — the grammar.
-/

namespace Packrat.Program

open Phrase Rule

/-- The rule that a phrase is made of. -/
abbrev Pattern := Rule Phrase Node

/-- A text between two marks. There are no escapes, so the mark cannot be part of the text. -/
def quoted (mark : String) : Pattern :=
  built (Assembly.ofText "StringLit" "text" .string)
    [mark, captured "text" [zeroOrMore [absent [mark], any]], mark]

/-- Elements between two marks, with a comma between each two. No elements at all are still an
empty list of them. -/
def delimited (opening : String) (element : Pattern) (closing : String) : Pattern :=
  let others : Pattern := zeroOrMore [optionalWhitespaces, ",", optionalWhitespaces, element]
  let elements : Pattern := .repetition (seq [element, others]) 0 (some 1)
  seq [opening, optionalWhitespaces, elements, optionalWhitespaces, closing]

/-- Letters and the underscore, of which a name is made. -/
def label : Pattern := oneOrMore [charSet ⟨[⟨'A', 'Z'⟩, .single '_']⟩]

/-- The line that ends a document with the bound label. -/
def terminator : Pattern := seq [backref "label", alt [eol, endOfInput]]

/-- The rule that a phrase stands for. -/
def body : Phrase → Pattern
  | .program =>
    built (Assembly.ofNodes "Program" "statements" .program)
      [captured "statements" [zeroOrMore [alt [statement, whitespace]]]]
  -- A comment behind an expression is a statement of its own.
  | .statement => alt [comment, seq [expression, optionalSpaces, opt [comment]]]
  | .comment =>
    built (Assembly.ofText "Comment" "text" .comment)
      ["#", captured "text" [zeroOrMore [absent [eol], any]], opt [eol]]
  -- A document ends its own line, so there is nothing left to terminate.
  | .expression => seq [object, alt [lineStart, seq [optionalSpaces, expressionTerminator]]]
  | .expressionTerminator => alt [";", eol, present [comment], endOfInput]
  | .object => alt [recursiveObject, simpleObject]
  | .simpleObject => alt [nilLiteral, boolean, numeric, character, string, regularExpression]
  | .recursiveObject => alt [keyValuePair, range, hashLiteral, list]
  | .nilLiteral => built (Assembly.constant "Nil" .nil) ["nil"]
  | .boolean => alt [trueLiteral, falseLiteral]
  | .trueLiteral => built (Assembly.constant "_true" (.bool true)) ["true"]
  | .falseLiteral => built (Assembly.constant "_false" (.bool false)) ["false"]
  | .numeric => alt [decimal, integer]
  | .decimal =>
    built (Assembly.ofNumber "Decimal" .decimal)
      [opt [captured "sign" [sign]], captured "digits" [opt [digits], ".", digits]]
  | .integer =>
    built (Assembly.ofNumber "Integer" .integer)
      [opt [captured "sign" [sign]], captured "digits" [digits]]
  | .sign => alt ["+", "-"]
  | .digit => charSet ⟨[⟨'0', '9'⟩]⟩
  -- The underscore groups digits; it has a digit on both sides.
  | .digits => seq [oneOrMore [digit], zeroOrMore [opt ["_"], oneOrMore [digit]]]
  | .character =>
    built (Assembly.ofText "Character" "char" .character)
      ["\x60", captured "char" [charSet ⟨[⟨'0', '9'⟩, ⟨'a', 'z'⟩, ⟨'A', 'Z'⟩, .single '_']⟩]]
  | .string => alt [symbolString, singleQuotedString, doubleQuotedString, hereDoc]
  | .symbolString =>
    built (Assembly.ofText "StringLit" "text" .string)
      [":", captured "text" [oneOrMore [charSet ⟨[⟨'a', 'z'⟩, ⟨'A', 'Z'⟩, .single '_']⟩]]]
  | .singleQuotedString => quoted "'"
  | .doubleQuotedString => quoted "\x22"
  | .hereDoc =>
    built (Assembly.ofText "StringLit" "text" .string)
      ["<<", bound "label" [label], eol,
        captured "text"
        [zeroOrMore [absent [terminator], seq [zeroOrMore [absent [eol], any], eol]]], terminator]
  | .regularExpression =>
    built (Assembly.ofText "Regex" "pattern" .regex)
      ["/", captured "pattern" [zeroOrMore [absent ["/"], any]], "/"]
  -- Keys are simple objects; there is no such thing as a list for a key.
  | .keyValuePair =>
    built Assembly.keyValue
      [captured "key" [simpleObject], optionalSpaces, ":", optionalSpaces,
        captured "value" [object]]
  | .range =>
    built Assembly.range
      [captured "start" [alt [integer, character]], optionalSpaces, "..",
        opt [captured "exclusivity" ["."]], optionalSpaces,
        captured "end" [alt [integer, character]]]
  | .hashLiteral =>
    built (Assembly.ofNodes "Hash" "pairs" .hash)
      [captured "pairs" [delimited "\x7b" keyValuePair "\x7d"]]
  | .list =>
    built (Assembly.ofNodes "List" "items" .list) [captured "items" [delimited "[" object "]"]]
  | .whitespace => alt [space, eol]
  | .whitespaces => oneOrMore [whitespace]
  | .optionalWhitespaces => opt [whitespaces]
  | .space => alt [" ", "\t"]
  | .spaces => oneOrMore [space]
  | .optionalSpaces => opt [spaces]
  | .eol => alt ["\r\n", "\n", "\r"]
  | .eols => zeroOrMore [eol]
  | .endOfInput => absent [any]

/-- The grammar of programs. -/
def grammar : Grammar Phrase Node where
  rules := Phrase.all
  mem_rules := Phrase.mem_all
  define p := { name := p.name, errorName := p.errorName, body := .ok (body p) }

end Packrat.Program
