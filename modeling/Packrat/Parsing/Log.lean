set_option autoImplicit false
set_option relaxedAutoImplicit false

/-!
# The log

Work is logged at three levels. Whoever reads the log chooses the lowest level to see.

## Main definitions

* `Packrat.Level`, `Packrat.LogEntry` — the levels, and an entry of the log.
* `Packrat.atLeast` — the entries from a level up.
-/

namespace Packrat

/-- How much an entry of the log matters. -/
inductive Level where
  | debug
  | info
  | warning
  deriving DecidableEq, Repr

/-- The name of a level. -/
def Level.name : Level → String
  | .debug => "DEBUG"
  | .info => "INFO"
  | .warning => "WARNING"

/-- The place of a level among the levels. -/
def Level.rank : Level → Nat
  | .debug => 0
  | .info => 1
  | .warning => 2

/-- An entry of the log. -/
structure LogEntry where
  level : Level
  /-- The part of the work that made the entry. -/
  logger : String
  message : String
  deriving DecidableEq, Repr

/-- An entry as a line. -/
def LogEntry.render (e : LogEntry) : String := e.level.name ++ ":" ++ e.logger ++ ":" ++ e.message

/-- The entries from a level up. -/
def atLeast (level : Level) (entries : List LogEntry) : List LogEntry :=
  entries.filter fun e => level.rank ≤ e.level.rank

end Packrat
