import Packrat.Proofs.Parsing.Accepting
import Packrat.Proofs.Program.Solution
set_option autoImplicit false
set_option relaxedAutoImplicit false

/-!
# No parse comes upon a flaw

The grammar of programs refers to no name that nothing is bound to, never mixes fields with other
values, and no builder refuses what it is given. So every phrase either reports a failure or gives a
value, and that is the text, a node or a row of nodes.

## Main definitions

* `Packrat.Program.Result` — what a parse of a phrase may give.

## Main results

* `Packrat.Program.parse_failure_or_result` — every parse reports a failure or gives such a value.
-/

namespace Packrat.Program

/-- What a parse of a phrase may give: the text itself, a node, or a row of nodes. -/
inductive Result (text : String) : Value Node → Prop
  | text : Result text (.text text)
  | node (v : Node) : Result text (.object v)
  | nodes (vs : List Node) : Result text (.items (vs.map .object))

section

variable {text : String} {produced : Option (Value Node)} {rest : List Char}

/-- What takes characters silently gives the text itself. -/
lemma result_of_silent {left : Option (List Char)} (h : silent left = some ⟨produced, rest⟩) :
    Result text (produced.getD (.text text)) := by
  obtain ⟨_, -, heq⟩ := Option.map_eq_some_iff.1 h
  cases heq
  exact .text

/-- What reads a node gives the node. -/
lemma result_of_whole {read : Option (Node × List Char)} (h : whole read = some ⟨produced, rest⟩) :
    Result text (produced.getD (.text text)) := by
  obtain ⟨⟨v, _⟩, -, heq⟩ := Option.map_eq_some_iff.1 h
  cases heq
  exact .node v

/-- A row of statements gives the text, a node or a row of nodes. -/
lemma result_statementValue : ∀ nodes : List Node,
    Result text ((statementValue nodes).getD (.text text))
  | [] => .text
  | [v] => .node v
  | v :: w :: nodes => .nodes (v :: w :: nodes)

/-- What the reader of a phrase produces is a node or a row of nodes, if it is anything. -/
lemma Phrase.result_of_read {x : Phrase} {cs : List Char} (h : x.read cs = some ⟨produced, rest⟩) :
    Result text (produced.getD (.text text)) := by
  cases x with
  | statement =>
    obtain ⟨⟨nodes, _⟩, -, heq⟩ := Option.map_eq_some_iff.1 h
    cases heq
    exact result_statementValue nodes
  | program | comment | expression | object | simpleObject | recursiveObject | nilLiteral | boolean
  | trueLiteral | falseLiteral | numeric | decimal | integer | character | string | symbolString
  | singleQuotedString | doubleQuotedString | hereDoc | regularExpression | keyValuePair | range
  | hashLiteral | list => exact result_of_whole h
  | expressionTerminator | sign | digit | digits | whitespace | whitespaces | optionalWhitespaces
  | space | spaces | optionalSpaces | eol | eols | endOfInput => exact result_of_silent h

end

/-- Every phrase reports a failure or gives the text, a node or a row of nodes. No parse comes upon
a flaw of the grammar, whether or not results are remembered and whatever the limit. -/
theorem parse_failure_or_result (settings : Settings) (x : Phrase) (text : String) :
    (∃ failure, grammar.parse settings (.named x) text = .error (.failure failure)) ∨
      ∃ value, grammar.parse settings (.named x) text = .ok value ∧ Result text value := by
  refine ((solves_grammar text).parse_failure_or_ok settings x).imp_right ?_
  rintro ⟨produced, hread, hok⟩
  exact ⟨_, hok, Phrase.result_of_read hread⟩

end Packrat.Program
