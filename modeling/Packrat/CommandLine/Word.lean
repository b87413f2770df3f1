import Packrat.CommandLine.Switch
import Packrat.Text.DecimalDigit
set_option autoImplicit false
set_option relaxedAutoImplicit false

/-!
# The words of a command line

Words are options and operands. A long option may be cut short as long as no other one begins
alike, and may carry a value behind `=`. Letters of short options may share one word. What starts
like an option and is none is an operand if it is a negative number or has a space in it. Behind the
word `--` everything is an operand.

## Main definitions

* `Packrat.CommandLine.Word` — what a word is, once it is read.
* `Packrat.CommandLine.readWords` — reads the words of a command line.
-/

namespace Packrat.CommandLine

/-- What a word of the command line is. -/
inductive Word where
  | operand (text : String)
  /-- The word `--`. -/
  | separator
  /-- Letters of options that take no value, in one word. -/
  | letters (switches : List Switch)
  /-- An option written out, with the value behind `=` if there is one. -/
  | long (switch : Switch) (value : Option String)
  /-- Letters of options with something behind them that they do not take. -/
  | overfull (switch : Switch) (rest : String)
  /-- What looks like an option and is none. -/
  | unknown (text : String)
  deriving DecidableEq, Repr

/-- Reads the letters of a word behind the option that came last. -/
def readLetters (read : List Switch) (last : Switch) : List Char → Word
  | [] => .letters (read ++ [last])
  | c :: cs =>
    match Switch.ofLetter? c with
    | some next => readLetters (read ++ [last]) next cs
    | none => .overfull last (String.ofList (c :: cs))

/-- Whether a word is a negative number: digits behind the minus sign, with at most one point before
the last of them. A line feed at the end does not count. -/
def isNegativeNumber (cs : List Char) : Bool :=
  let digits := if cs.getLast? = some '\n' then cs.dropLast else cs
  let fraction := digits.dropWhile isDecimalDigit
  match fraction with
  | [] => !digits.isEmpty
  | '.' :: ds => !ds.isEmpty && ds.all isDecimalDigit
  | _ => false

/-- Reads a word that starts with two minus signs and is more than that. -/
def readLong (word : String) : Except UsageError Word :=
  let name := String.ofList (word.toList.takeWhile (· ≠ '='))
  let value := match word.toList.dropWhile (· ≠ '=') with
    | [] => none
    | _ :: value => some (String.ofList value)
  match Switch.ofLong? word, Switch.ofLong? name with
  | some o, _ => .ok (.long o none)
  | none, some o => .ok (.long o value)
  | none, none =>
    match Switch.all.filter fun o => name.toList.isPrefixOf o.long.toList with
    | [] => .ok (if ' ' ∈ word.toList then .operand word else .unknown word)
    | [o] => .ok (.long o value)
    | options => .error (.ambiguous word options)

/-- Reads a word in front of the separator. -/
def readWord (word : String) : Except UsageError Word :=
  match word.toList with
  | '-' :: '-' :: _ => readLong word
  | '-' :: c :: cs =>
    match Switch.ofLetter? c with
    | some o =>
      match cs with
      | '=' :: value =>
        .ok (if value.isEmpty then .overfull o "" else readLetters [] o value)
      | _ => .ok (readLetters [] o cs)
    | none =>
      .ok (if isNegativeNumber (c :: cs) || decide (' ' ∈ word.toList) then .operand word
        else .unknown word)
  | _ => .ok (.operand word)

/-- Reads the words of a command line. -/
def readWords : List String → Except UsageError (List Word)
  | [] => .ok []
  | word :: words =>
    if word = "--" then .ok (.separator :: words.map .operand)
    else do
      let first ← readWord word
      let others ← readWords words
      .ok (first :: others)

end Packrat.CommandLine
