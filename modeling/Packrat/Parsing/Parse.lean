import Packrat.Matching.Apply
import Packrat.Parsing.Failure
import Packrat.Parsing.Log
set_option autoImplicit false
set_option relaxedAutoImplicit false

/-!
# Parsing

A start rule parses a text if it matches all of it; there is no partial success. The answer is the
value that the rule produces, or the text itself if it produces none.

## Main definitions

* `Packrat.Settings` — whether results are remembered, whether events are traced, and the limit.
* `Packrat.Grammar.run` — applies a start rule to a text, from the beginning and a fresh state.
* `Packrat.Grammar.parse` — parses a text.
* `Packrat.Grammar.parseLogged` — parses a text and logs what happens.
-/

namespace Packrat

/-- How a text is parsed. -/
structure Settings where
  /-- Whether the results of named rules are remembered. -/
  memoize : Bool := true
  /-- Whether entering and leaving named rules is recorded. -/
  tracing : Bool := false
  /-- How deep the application of rules may be nested. -/
  limit : Nat := 1000

/-- Why a parse gives no value. -/
inductive ParseError (α : Type) where
  /-- The text is not what the rule describes. -/
  | failure (failure : Failure)
  /-- The grammar is flawed. -/
  | flaw (flaw : Flaw α)

variable {ν α : Type} [DecidableEq ν]

namespace Grammar

/-- Applies a start rule to a text, from the beginning and a fresh state. -/
def run (g : Grammar ν α) (settings : Settings) (start : Rule ν α) (text : Text) :
    Answer ν α (Match α) :=
  g.apply text settings.limit start 0 [] (.fresh settings.memoize settings.tracing)

end Grammar

/-- What the answer of a start rule means for the text as a whole. -/
def Answer.conclude (text : Text) : Answer ν α (Match α) → Except (ParseError α) (Value α)
  | (.matched result, run) =>
    if result.stop = text.size then .ok (result.value.getD (.text text.toString))
    else .error (.failure (run.failure text (some result.stop)))
  | (.unmatched, run) => .error (.failure (run.failure text none))
  | (.stopped .tooDeep, run) => .error (.failure (run.tooDeep text))
  | (.stopped (.flaw flaw), _) => .error (.flaw flaw)

namespace Grammar

/-- Parses a text. -/
def parse (g : Grammar ν α) (settings : Settings) (start : Rule ν α) (text : String) :
    Except (ParseError α) (Value α) :=
  (g.run settings start (.ofString text)).conclude (.ofString text)

/-- The entry of the log about how a parse ended. A flaw of the grammar is not logged. -/
def outcomeEntries (g : Grammar ν α) (start : Rule ν α) (text : Text) :
    Except (ParseError α) (Value α) → List LogEntry
  | .ok _ =>
    [⟨.debug, "rip.parse", "Parsed " ++ toString text.size ++ " characters with " ++
      g.render start⟩]
  | .error (.failure failure) =>
    [⟨.info, "rip.parse", "Parse failed with " ++ g.render start ++ ": " ++ failure.render⟩]
  | .error (.flaw _) => []

/-- The entries of the log about the events of a parse. -/
def traceEntries (g : Grammar ν α) (events : List (Event ν)) : List LogEntry :=
  events.map fun e => ⟨.debug, "rip.trace", e.render fun x => (g.define x).name⟩

/-- Parses a text and logs what happens, from a level up. -/
def parseLogged (g : Grammar ν α) (level : Level) (memoize : Bool) (start : Rule ν α)
    (text : String) : Except (ParseError α) (Value α) × List LogEntry :=
  let settings : Settings := { memoize := memoize, tracing := decide (level = .debug) }
  let text := Text.ofString text
  let answer := g.run settings start text
  let outcome := answer.conclude text
  (outcome, atLeast level (g.traceEntries answer.2.events ++ g.outcomeEntries start text outcome))

end Grammar

end Packrat
