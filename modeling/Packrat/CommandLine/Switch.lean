import Packrat.Text.Quoted
set_option autoImplicit false
set_option relaxedAutoImplicit false

/-!
# Options and mistakes in their use

## Main definitions

* `Packrat.CommandLine.Switch` — the options, with the ways to write them.
* `Packrat.CommandLine.UsageError` — what can be wrong with a command line.
-/

namespace Packrat.CommandLine

/-- An option of the command line. -/
inductive Switch where
  | help
  | startRule
  | format
  | verbose
  deriving DecidableEq, Repr

namespace Switch

/-- The options, in the order in which they are listed. -/
def all : List Switch := [.help, .startRule, .format, .verbose]

/-- How an option is written in full. -/
def long : Switch → String
  | .help => "--help"
  | .startRule => "--start-rule"
  | .format => "--format"
  | .verbose => "--verbose"

/-- The letter of an option, if it has one. -/
def letter? : Switch → Option Char
  | .help => some 'h'
  | .verbose => some 'v'
  | .startRule | .format => none

/-- Whether an option takes a value. -/
def takesValue : Switch → Bool
  | .startRule | .format => true
  | .help | .verbose => false

/-- How a message names an option. -/
def title (s : Switch) : String :=
  match s.letter? with
  | none => s.long
  | some c => "-" ++ String.singleton c ++ "/" ++ s.long

/-- The option of the given letter. -/
def ofLetter? (c : Char) : Option Switch := all.find? fun s => s.letter? == some c

/-- The option that is written in full as given. -/
def ofLong? (s : String) : Option Switch := all.find? fun o => o.long == s

end Switch

/-- What can be wrong with a command line. -/
inductive UsageError where
  /-- An option lacks its value. -/
  | valueMissing (switch : Switch)
  /-- An option that takes no value has one. -/
  | valueIgnored (switch : Switch) (value : String)
  /-- There is no format of this name. -/
  | noSuchFormat (name : String)
  /-- A word could be several options. -/
  | ambiguous (word : String) (options : List Switch)
  /-- The path is missing. -/
  | pathMissing
  /-- These words mean nothing. -/
  | unrecognized (words : List String)
  deriving DecidableEq, Repr

/-- The wording of what is wrong. -/
def UsageError.message : UsageError → String
  | .valueMissing o => "argument " ++ o.title ++ ": expected one argument"
  | .valueIgnored o value =>
    "argument " ++ o.title ++ ": ignored explicit argument " ++ quote value
  | .noSuchFormat name =>
    "argument --format: invalid choice: " ++ quote name ++ " (choose from 'tree', 'tagged')"
  | .ambiguous word options =>
    "ambiguous option: " ++ word ++ " could match " ++ ", ".intercalate (options.map Switch.long)
  | .pathMissing => "the following arguments are required: source_path"
  | .unrecognized words => "unrecognized arguments: " ++ " ".intercalate words

end Packrat.CommandLine
