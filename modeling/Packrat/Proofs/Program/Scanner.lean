import Packrat.Program.Node
import Packrat.Proofs.Matching.Repeating
set_option autoImplicit false
set_option relaxedAutoImplicit false

/-!
# Reading the pieces of a program

What the rules for the smallest pieces of a program take off the characters ahead, as functions of
these characters: line breaks, runs of spaces, and the simple objects. A reader gives the node that
it has read and the characters behind it, or nothing.

## Main definitions

* `Packrat.Program.Reader` — the readers.
* `Packrat.Program.dropBreak?`, `Packrat.Program.dropDigits?` — passing over a line break and
  digits.
* `Packrat.Program.simpleAt` — reads a simple object; one more function reads each kind of them.
* `Packrat.Program.commentAt` — reads a comment.
-/

namespace Packrat.Program

/-- A reader gives a node and the characters behind it. -/
abbrev Reader := List Char → Option (Node × List Char)

/-! ## Kinds of characters -/

/-- The character is a space or a tab. -/
def isSpace (c : Char) : Bool := c == ' ' || c == '\t'

/-- The character is a space, a tab or part of a line break. -/
def isBlank (c : Char) : Bool := isSpace c || endsLine c

/-- The digits. -/
def digitSet : CharSet := ⟨[⟨'0', '9'⟩]⟩

/-- What a symbol is made of. -/
def letterSet : CharSet := ⟨[⟨'a', 'z'⟩, ⟨'A', 'Z'⟩, .single '_']⟩

/-- What may be written as a single character. -/
def wordSet : CharSet := ⟨[⟨'0', '9'⟩, ⟨'a', 'z'⟩, ⟨'A', 'Z'⟩, .single '_']⟩

/-- What the label of a document is made of. -/
def labelSet : CharSet := ⟨[⟨'A', 'Z'⟩, .single '_']⟩

/-! ## Passing over characters -/

/-- The characters behind a line break. -/
def dropBreak? : List Char → Option (List Char)
  | '\r' :: '\n' :: cs => some cs
  | '\n' :: cs => some cs
  | '\r' :: cs => some cs
  | _ => none

/-- The characters behind a space, a tab or a line break. -/
def dropBlank? (cs : List Char) : Option (List Char) := (dropChar? isSpace cs).or (dropBreak? cs)

/-- The characters behind more digits, with single underscores between them. -/
def dropMoreDigits : List Char → List Char
  | '_' :: d :: cs => if digitSet.contains d then dropMoreDigits cs else '_' :: d :: cs
  | c :: cs => if digitSet.contains c then dropMoreDigits cs else c :: cs
  | [] => []

/-- The characters behind digits, with single underscores between them. -/
def dropDigits? (cs : List Char) : Option (List Char) :=
  (dropChar? digitSet.contains cs).map dropMoreDigits

/-- The sign in front of a number, if there is one, and the characters behind it. -/
def signAt : List Char → Option String × List Char
  | '+' :: cs => (some "+", cs)
  | '-' :: cs => (some "-", cs)
  | cs => (none, cs)

/-- The characters behind the label of a document and the end of its line. -/
def endLabel? (label cs : List Char) : Option (List Char) := do
  let rest ← cs.dropPrefix? label
  if rest = [] then some [] else dropBreak? rest

/-- A step over a line of a document. -/
def lineStep (label cs : List Char) : Option (Unit × List Char) :=
  match endLabel? label cs with
  | some _ => none
  | none => (dropBreak? (cs.dropWhile (!endsLine ·))).map fun rest => ((), rest)

/-! ## Reading simple objects -/

/-- Reads a word that stands for a node. -/
def wordAt (word : List Char) (node : Node) : Reader := fun cs =>
  (cs.dropPrefix? word).map fun rest => (node, rest)

/-- Reads the word for nil. -/
def nilAt : Reader := wordAt ['n', 'i', 'l'] .nil

/-- Reads the word for what is true. -/
def trueAt : Reader := wordAt ['t', 'r', 'u', 'e'] (.bool true)

/-- Reads the word for what is false. -/
def falseAt : Reader := wordAt ['f', 'a', 'l', 's', 'e'] (.bool false)

/-- Reads a word for a truth value. -/
def booleanAt : Reader := fun cs => (trueAt cs).or (falseAt cs)

/-- Reads a number without a point: a sign, if there is one, and digits. -/
def integerAt : Reader := fun cs => do
  let rest ← dropDigits? (signAt cs).2
  some (.integer (String.ofList (front (signAt cs).2 rest)) (signAt cs).1, rest)

/-- Reads a number with a point, which needs digits behind it but none in front. -/
def decimalAt : Reader := fun cs => do
  let point ← dropChar? (· == '.') ((dropDigits? (signAt cs).2).getD (signAt cs).2)
  let rest ← dropDigits? point
  some (.decimal (String.ofList (front (signAt cs).2 rest)) (signAt cs).1, rest)

/-- Reads a number, with a point if there is one with digits behind it. -/
def numericAt : Reader := fun cs => (decimalAt cs).or (integerAt cs)

/-- Reads a mark and the single character behind it. -/
def characterAt : Reader := fun cs => do
  let char ← dropChar? (· == '\x60') cs
  let rest ← dropChar? wordSet.contains char
  some (.character (String.ofList (front char rest)), rest)

/-- Reads a colon and the letters behind it. -/
def symbolAt : Reader := fun cs => do
  let name ← dropChar? (· == ':') cs
  let _ ← dropChar? letterSet.contains name
  some (.string (String.ofList (name.takeWhile letterSet.contains)),
    name.dropWhile letterSet.contains)

/-- Reads a text between two marks. -/
def quotedAt (mark : Char) (make : String → Node) : Reader := fun cs => do
  let body ← dropChar? (· == mark) cs
  let rest ← dropChar? (· == mark) (body.dropWhile (· != mark))
  some (make (String.ofList (body.takeWhile (· != mark))), rest)

/-- Reads a document, whose label is repeated on the line behind it. -/
def hereDocAt : Reader := fun cs => do
  let label ← cs.dropPrefix? ['<', '<']
  let _ ← dropChar? labelSet.contains label
  let body ← dropBreak? (label.dropWhile labelSet.contains)
  let close := (many (lineStep (label.takeWhile labelSet.contains)) body).2
  let rest ← endLabel? (label.takeWhile labelSet.contains) close
  some (.string (String.ofList (front body close)), rest)

/-- Reads a symbol, a text between two quotation marks of one kind, or a document. -/
def stringAt : Reader := fun cs =>
  (symbolAt cs).or ((quotedAt '\x27' .string cs).or
    ((quotedAt '\x22' .string cs).or (hereDocAt cs)))

/-- Reads a pattern between two slashes. -/
def regexAt : Reader := quotedAt '/' .regex

/-- Reads a simple object. -/
def simpleAt : Reader := fun cs =>
  (nilAt cs).or ((booleanAt cs).or ((numericAt cs).or ((characterAt cs).or
    ((stringAt cs).or (regexAt cs)))))

/-- Reads an end of a range. -/
def endpointAt : Reader := fun cs => (integerAt cs).or (characterAt cs)

/-- Reads a comment, with the line break that ends it if there is one. -/
def commentAt : Reader := fun cs => do
  let text ← dropChar? (· == '#') cs
  let rest := text.dropWhile (!endsLine ·)
  some (.comment (String.ofList (text.takeWhile (!endsLine ·))), (dropBreak? rest).getD rest)

end Packrat.Program
