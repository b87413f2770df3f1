import Packrat.Rule.CharSet
import Packrat.Rule.Error
set_option autoImplicit false
set_option relaxedAutoImplicit false

/-!
# Sets of characters as they are written

A set of characters is written as a list of texts, all of whose characters are in it, and of spans,
which have two characters for their ends. Whatever else stands in the list, or for an end, is a
mistake.

## Main definitions

* `Packrat.CharSet.Argument` — part of a set as it is written.
* `Packrat.CharSet.ofArguments` — the set that is written as a list of them.
* `Packrat.CharSet.containsWritten` — membership of what is written for a character.
-/

namespace Packrat

/-- The one character of a text. -/
def oneCharacter (s : String) : Except RuleError Char :=
  match s.toList with
  | [c] => .ok c
  | cs => .error (.notACharacter cs.length)

namespace CharSet

/-- What is written for a character, such as an end of a span. -/
inductive End where
  | text (text : String)
  | nothing
  /-- Something else, of the given type. -/
  | other (type : String)

/-- The character that is written. -/
def End.character : End → Except RuleError Char
  | .text s => oneCharacter s
  | .nothing => .error (.notText "NoneType")
  | .other type => .error (.notText type)

/-- How part of a set is written. -/
inductive Argument where
  /-- All characters of a text. -/
  | chars (text : String)
  /-- A span by its ends; what follows the first two of them does not count. -/
  | span (ends : List End)
  /-- A record, which has no ends. -/
  | record
  /-- Something else, of the given type. -/
  | other (type : String)

/-- The spans that part of a set stands for. A span that ends with nothing is its first character
alone. -/
def Argument.spans : Argument → Except RuleError (List Span)
  | .chars s => .ok (s.toList.map .single)
  | .span (first :: .nothing :: _) => do .ok [.single (← first.character)]
  | .span (first :: last :: _) => do
    let first ← first.character
    let last ← last.character
    .ok [⟨first, last⟩]
  | .span _ => .error .spanTooShort
  | .record => .error .noFirstEnd
  | .other type => .error (.notASpan type)

/-- The set that is written as a list of texts and spans. -/
def ofArguments (args : List Argument) : Except RuleError CharSet := do
  let spans ← args.mapM Argument.spans
  .ok ⟨spans.flatten⟩

/-- Whether what is written for a character is in a set. An empty set holds nothing, whatever it is
asked for. -/
def containsWritten (set : CharSet) (c : End) : Except RuleError Bool :=
  if set.spans.isEmpty then .ok false else set.contains <$> c.character

end CharSet

end Packrat
