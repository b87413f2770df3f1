import Packrat.Parsing.Parse
import Packrat.Program.Grammar
import Packrat.Program.Path
import Packrat.Text.LineBreak
import Packrat.Text.Utf8
set_option autoImplicit false
set_option relaxedAutoImplicit false

/-!
# Program sources

A program is parsed from text, or from a file whose bytes spell the text in UTF-8 and whose lines
may be broken in any of the usual ways. A byte order mark is part of the text.

## Main definitions

* `Packrat.Program.parse` — parses the text of a program, or of any phrase.
* `Packrat.Program.sourceText` — the text at a path.
* `Packrat.Program.parseFile` — parses the program in a file.
-/

namespace Packrat.Program

/-- Why a path gives no text. -/
inductive ReadError where
  /-- The path has a null character in it. -/
  | nullInPath
  /-- The path leads to nothing. -/
  | missing (path : String)
  /-- The path goes on behind a file. -/
  | notADirectory (path : String)
  /-- The path leads to a directory. -/
  | isADirectory (path : String)
  /-- The path, or a name in it, is too long. -/
  | tooLong (path : String)
  /-- The bytes in the file spell no text. -/
  | undecodable (fault : Utf8.Fault)
  deriving DecidableEq, Repr

/-- The wording of the error. -/
def ReadError.message : ReadError → String
  | .nullInPath => "embedded null byte"
  | .missing path => "[Errno 2] No such file or directory: " ++ quote path
  | .notADirectory path => "[Errno 20] Not a directory: " ++ quote path
  | .isADirectory path => "[Errno 21] Is a directory: " ++ quote path
  | .tooLong path => "[Errno 36] File name too long: " ++ quote path
  | .undecodable fault => fault.message

/-- Why a file gives no program. -/
inductive SourceError where
  | read (error : ReadError)
  | parse (error : ParseError Node)

/-- Parses the text of a phrase. -/
def parse (text : String) (phrase : Phrase := .program) (settings : Settings := {}) :
    Except (ParseError Node) (Value Node) :=
  grammar.parse settings (.named phrase) text

/-- The text that bytes spell, with its lines broken by line feeds. -/
def textOfBytes (bytes : ByteArray) : Except ReadError String :=
  match Utf8.decode bytes with
  | .error fault => .error (.undecodable fault)
  | .ok cs => .ok (String.ofList (unifyLineBreaks cs))

/-- The text at a path that leads to the given target. -/
def sourceText (path : String) (target : Target) : Except ReadError String :=
  if '\x00' ∈ path.toList then .error .nullInPath
  else
    match target with
    | .file bytes => textOfBytes bytes
    | .directory => .error (.isADirectory path)
    | .nothing => .error (.missing path)
    | .behindFile => .error (.notADirectory path)
    | .tooLong => .error (.tooLong path)

/-- Parses the program at a path that leads to the given target, and logs what happens, from a level
up. -/
def parseFile (level : Level) (path : String) (target : Target) :
    Except SourceError (Value Node) × List LogEntry :=
  let begun := atLeast level [⟨.info, "rip.load", "Parsing " ++ path⟩]
  match sourceText path target with
  | .error error => (.error (.read error), begun)
  | .ok text =>
    let (outcome, entries) := grammar.parseLogged level true (.named .program) text
    (outcome.mapError .parse, begun ++ entries)

end Packrat.Program
