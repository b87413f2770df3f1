import Packrat.Grammar.Reachable
set_option autoImplicit false
set_option relaxedAutoImplicit false

/-!
# Listing a grammar

The grammar of a start rule is listed one definition a line: that of the start rule first, the
others in the order of their names. Only a named rule has a definition, so a start rule has to be
one.

## Main definitions

* `Packrat.ListingError` — why a grammar cannot be listed.
* `Packrat.Grammar.format` — the definitions of the reachable rules, one a line.
-/

namespace Packrat

variable {ν α : Type}

/-- What a message calls a rule by its form. -/
def Rule.kind : Rule ν α → String
  | .literal _ => "LiteralRule"
  | .charSet _ => "CharSetRule"
  | .any => "AnyRule"
  | .lineStart => "LineStartRule"
  | .sequence _ => "SequenceRule"
  | .choice _ => "ChoiceRule"
  | .repetition _ _ _ => "RepeatRule"
  | .optional _ => "OptionalRule"
  | .lookahead _ _ => "LookaheadRule"
  | .capture _ _ => "CaptureRule"
  | .build _ _ => "BuildRule"
  | .bind _ _ => "BindRule"
  | .backref _ => "BackrefRule"
  | .named _ => "NonTerminal"

/-- Whether a rule has a name of its own, be it that of a rule or that of a piece of text. -/
def Rule.hasName : Rule ν α → Bool
  | .capture _ _ | .bind _ _ | .backref _ | .named _ => true
  | _ => false

/-- Why a grammar cannot be listed. -/
inductive ListingError where
  /-- The rules that the start rule reaches are no grammar. -/
  | reach (error : ReachError)
  /-- The start rule, which is of this kind, has no name. -/
  | nameless (kind : String)
  /-- The start rule, which is of this kind, has no definition. -/
  | undefined (kind : String)
  deriving DecidableEq, Repr

/-- The wording of the error. -/
def ListingError.message : ListingError → String
  | .reach error => error.message
  | .nameless kind => "'" ++ kind ++ "' object has no attribute 'name'"
  | .undefined kind => "'" ++ kind ++ "' object has no attribute 'definition'"

namespace Grammar

variable [DecidableEq ν]

/-- The definitions of some rules, one a line: that of the start rule first, the others in the order
of their names. -/
def definitions (g : Grammar ν α) (start : ν) (rules : List ν) :
    Except RuleError (List String) :=
  let others := rules.filter (fun x => decide (x ≠ start))
  let names := sorted (others.map fun x => (g.define x).name)
  let ordered := names.filterMap fun name => others.find? fun x => (g.define x).name == name
  (start :: ordered).mapM g.renderDefinition

/-- The definitions of the rules that a start rule reaches, one a line. -/
def format (g : Grammar ν α) (start : Rule ν α) : Except ListingError (List String) := do
  let found ← (g.reachable start).mapError .reach
  match start with
  | .named x => (g.definitions x found).mapError fun mistake => .reach (.badRule mistake)
  | rule => .error (if rule.hasName then .undefined rule.kind else .nameless rule.kind)

end Grammar

end Packrat
