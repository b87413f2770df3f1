import Packrat.CommandLine.Request
import Packrat.Grammar.Reachable
import Packrat.Plain.Layout
import Packrat.Program.Inspect
import Packrat.Program.Outline
import Packrat.Program.Source
import Packrat.Program.Tagged
set_option autoImplicit false
set_option relaxedAutoImplicit false

/-!
# What the command line prints

The command parses one file and prints what is in it: the outlines of trees, or their tagged form,
or the quoted text of a phrase that has no tree. A text that cannot be parsed is reported with its
path, line and column. The log goes before all reports.

## Main definitions

* `Packrat.CommandLine.Report` — what is printed, and how the command ends.
* `Packrat.CommandLine.run` — what a command line comes to.
-/

namespace Packrat.CommandLine

open Program

/-- How a command ends. -/
inductive Ending where
  | exit (code : Nat)
  /-- The rule to start with was to be named, and was not. -/
  | unnamedStart
  /-- The file could not be read. -/
  | unreadable (error : ReadError)
  /-- The grammar proved to be flawed. -/
  | flawed (flaw : Flaw Node)

/-- The wording of an end with an error. -/
def Ending.message? : Ending → Option String
  | .exit _ => none
  | .unnamedStart => some "unhashable type: 'list'"
  | .unreadable error => some error.message
  | .flawed flaw => some flaw.message

/-- What a command prints, and how it ends. -/
structure Report where
  stdout : String := ""
  stderr : String := ""
  ending : Ending

/-- How the command is used. -/
def usage : String :=
  "usage: rip-parse [-h] [--start-rule START_RULE] [--format \x7btree,tagged\x7d] [-v]\n" ++
  "                 source_path\n"

/-- What the command says about itself. -/
def help : String :=
  usage ++
  "\n" ++
  "Parse a rip source file and print the tree\n" ++
  "\n" ++
  "positional arguments:\n" ++
  "  source_path           Path to an input file to parse\n" ++
  "\n" ++
  "options:\n" ++
  "  -h, --help            show this help message and exit\n" ++
  "  --start-rule START_RULE\n" ++
  "                        The name of the rule to start parsing with, e.g.\n" ++
  "                        'list' or 'numeric'. The default is to parse a whole\n" ++
  "                        program.\n" ++
  "  --format \x7btree,tagged\x7d\n" ++
  "                        Print an indented outline (tree) or the tagged form as\n" ++
  "                        JSON (tagged).\n" ++
  "  -v, --verbose         Log more. Once for parse outcomes, twice to trace\n" ++
  "                        every rule.\n"

/-- Lines as text, each with its line break. -/
def lines (ls : List String) : String := String.join (ls.map (· ++ "\n"))

/-- The lowest level of the log that is printed. -/
def Options.level (o : Options) : Level :=
  match o.verbosity with
  | 0 => .warning
  | 1 => .info
  | _ => .debug

/-- The phrase to start with: a rule that programs are made of. If there is none, that is the whole
report. -/
def StartRule.phrase : StartRule → Except Report Phrase
  | .program => .ok .program
  | .named name =>
    match (grammar.reachable? (.named .program) name).toOption.join with
    | some phrase => .ok phrase
    | none => .error { stderr := "Unknown rule '" ++ name ++ "'\n", ending := .exit 2 }
  | .unnamed => .error { ending := .unnamedStart }

/-- The trees in a value. -/
def trees : Value Node → List Node
  | .object n => [n]
  | .items vs => vs.filterMap fun
    | .object n => some n
    | _ => none
  | .text _ | .fields _ => []

/-- The tagged form of a value: that of its tree, or a list of those of its trees. -/
def taggedValue : Value Node → Plain
  | .object n => n.tagged
  | value => .list ((trees value).map Node.tagged)

/-- What is printed of a value. -/
def printed (format : Format) : Value Node → List String
  | .text s => [quote s]
  | value =>
    match format with
    | .tree => (trees value).map Node.outlineText
    | .tagged => [(taggedValue value).render]

/-- Parses a text from the file of the given name, starting with a phrase. -/
def report (path : String) (o : Options) (phrase : Phrase) (text : String) : Report :=
  let (outcome, entries) := grammar.parseLogged o.level true (.named phrase) text
  let log := lines (entries.map LogEntry.render)
  match outcome with
  | .ok value => { stdout := lines (printed o.format value), stderr := log, ending := .exit 0 }
  | .error (.failure failure) =>
    { stderr := log ++ path ++ ":" ++ failure.render ++ "\n", ending := .exit 1 }
  | .error (.flaw flaw) => { stderr := log, ending := .flawed flaw }

/-- What a command line comes to, given what paths lead to. The rule to start with is checked before
the file is read. -/
def run (args : List String) (follow : String → Target) : Report :=
  match read args with
  | .error error =>
    { stderr := usage ++ "rip-parse: error: " ++ error.message ++ "\n", ending := .exit 2 }
  | .ok .help => { stdout := help, ending := .exit 0 }
  | .ok (.parse path o) =>
    match o.startRule.phrase with
    | .error report => report
    | .ok phrase =>
      match sourceText path (follow path) with
      | .error error => { ending := .unreadable error }
      | .ok text => report path o phrase text

end Packrat.CommandLine
