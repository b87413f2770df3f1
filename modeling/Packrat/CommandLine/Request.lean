import Packrat.CommandLine.Word
set_option autoImplicit false
set_option relaxedAutoImplicit false

/-!
# What a command line asks for

A command line asks for help, or for one file to be parsed. Its words are taken in order: the first
operand is the path, an option given twice counts the last time, and the option for a fuller log
counts every time. Help is given as soon as it is asked for, and a wrong value is refused where it
stands; what is missing or left over shows at the end.

## Main definitions

* `Packrat.CommandLine.StartRule` — the rule to start with.
* `Packrat.CommandLine.Options` — how a file is to be parsed.
* `Packrat.CommandLine.Request` — what a command line asks for.
* `Packrat.CommandLine.read` — reads a command line.
-/

namespace Packrat.CommandLine

/-- How a tree is printed. -/
inductive Format where
  | tree
  | tagged
  deriving DecidableEq, Repr

/-- The format of the given name. -/
def Format.ofName? (name : String) : Option Format :=
  if name = "tree" then some .tree else if name = "tagged" then some .tagged else none

/-- The rule to start with. -/
inductive StartRule where
  /-- That of whole programs. -/
  | program
  | named (name : String)
  /-- The option that names the rule was left without a value. -/
  | unnamed
  deriving DecidableEq, Repr

/-- How a file is to be parsed. -/
structure Options where
  startRule : StartRule := .program
  format : Format := .tree
  /-- How often a fuller log was asked for. -/
  verbosity : Nat := 0
  deriving DecidableEq, Repr

/-- What a command line asks for. -/
inductive Request where
  | help
  | parse (path : String) (options : Options)
  deriving DecidableEq, Repr

/-- What the words so far ask for. -/
structure Partial where
  path : Option String := none
  options : Options := {}
  /-- Words that mean nothing. -/
  leftOver : List String := []

namespace Partial

/-- Takes a word that means nothing. -/
def leave (p : Partial) (text : String) : Partial := { p with leftOver := p.leftOver ++ [text] }

/-- Takes an operand: the path, if there is none yet. -/
def operand (p : Partial) (text : String) : Partial :=
  match p.path with
  | none => { p with path := some text }
  | some _ => p.leave text

/-- Takes the value of an option. The separator is no value; an option that has only the separator
is left without a value, and without a format trees are printed. -/
def value (p : Partial) (switch : Switch) (text : String) : Except UsageError Partial :=
  match switch with
  | .startRule =>
    let rule : StartRule := if text = "--" then .unnamed else .named text
    .ok { p with options := { p.options with startRule := rule } }
  | .format =>
    match if text = "--" then some .tree else Format.ofName? text with
    | some format => .ok { p with options := { p.options with format := format } }
    | none => .error (.noSuchFormat text)
  | .help | .verbose => .error (.valueIgnored switch text)

/-- Takes options that have no value, in order; nothing if one of them asks for help. -/
def switches (p : Partial) : List Switch → Option Partial
  | [] => some p
  | .help :: _ => none
  | .verbose :: ss =>
    switches { p with options := { p.options with verbosity := p.options.verbosity + 1 } } ss
  | .startRule :: ss | .format :: ss => switches p ss

/-- What was asked for once all words are taken. -/
def finish (p : Partial) : Except UsageError Request :=
  match p.path, p.leftOver with
  | none, _ => .error .pathMissing
  | some path, [] => .ok (.parse path p.options)
  | some _, words => .error (.unrecognized words)

end Partial

/-- Takes the words of a command line in order. A separator in front of the path or behind it goes
with the path. -/
def takeWords (p : Partial) : List Word → Except UsageError Request
  | [] => p.finish
  | .operand text :: .separator :: words =>
    takeWords (if p.path.isNone then p.operand text else (p.leave text).leave "--") words
  | .operand text :: words => takeWords (p.operand text) words
  | .separator :: .operand text :: words =>
    takeWords (if p.path.isNone then p.operand text else (p.leave "--").leave text) words
  | .separator :: words => takeWords (p.leave "--") words
  | .letters switches :: words =>
    match p.switches switches with
    | none => .ok .help
    | some p => takeWords p words
  | .long switch (some text) :: words => do
    let p ← p.value switch text
    takeWords p words
  | .long switch none :: words =>
    if switch.takesValue then
      match words with
      | .operand text :: words => do
        let p ← p.value switch text
        takeWords p words
      | _ => .error (.valueMissing switch)
    else
      match p.switches [switch] with
      | none => .ok .help
      | some p => takeWords p words
  | .overfull switch rest :: _ => .error (.valueIgnored switch rest)
  | .unknown text :: words => takeWords (p.leave text) words

/-- Reads a command line. -/
def read (args : List String) : Except UsageError Request := do
  let words ← readWords args
  takeWords {} words

end Packrat.CommandLine
