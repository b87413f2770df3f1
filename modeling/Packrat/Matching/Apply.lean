import Packrat.Grammar.Producing
import Packrat.Matching.Matcher
import Packrat.Text.Reading
set_option autoImplicit false
set_option relaxedAutoImplicit false

/-!
# Applying rules

A rule is applied to a text at a position, with a scope, in the state that a run has reached. The
answer is how the rule matches and the new state, which is there whatever the outcome. How the text
is read is an argument of its own; positions are those of the reading.

Rules may be nested without end, so application has a limit: each rule inside another takes one
step of it, and a named rule two. Whoever needs more stops with `Stop.tooDeep`. Rules inside others
are applied with the smaller limit.

## Main definitions

* `Packrat.Grammar.applyNamed` — applies a named rule, or finds its result remembered.
* `Packrat.Grammar.applyBy` — applies a rule to a text that is read in a given way.
* `Packrat.Grammar.apply` — applies a rule to a text by its positions.
-/

namespace Packrat

variable {ν α : Type} [DecidableEq ν]

namespace Run

/-- The answer that nothing matches here because something is missing. -/
def missing (run : Run ν α) (position : Nat) (description : String) : Answer ν α (Match α) :=
  (.unmatched, run.fail position description)

/-- The answer that the rule matches up to a stop and produces nothing. -/
def passed (run : Run ν α) (stop : Nat) (scope : Scope) : Answer ν α (Match α) :=
  (.matched ⟨⟨stop, none⟩, scope⟩, run)

end Run

namespace Grammar

/-- What a repetition produces: a list, if its rule can produce a value. -/
def repetitionValue (g : Grammar ν α) (rule : Rule ν α) (values : List (Option (Value α))) :
    Except RuleError (Option (Value α)) := do
  .ok (if ← g.produces rule then some (.items (spliceValues values)) else none)

/-- Applies the body of a named rule by the given matcher, with nothing bound. Within a rule that
has a name for error messages all failures are kept quiet. -/
def applyBody (g : Grammar ν α) (m : Matcher ν α) (x : ν) (position : Nat) (run : Run ν α) :
    Answer ν α (Match α) :=
  let hushing : Int := if (g.define x).errorName.isSome then 1 else 0
  let inside := { run.hush hushing with depth := run.depth + 1 }
  let answer : Answer ν α (Match α) :=
    match (g.define x).body with
    | .error mistake => (.stopped (.flaw (.badRule mistake)), inside)
    | .ok body => m body position [] inside
  (answer.1, { answer.2.hush (-hushing) with depth := answer.2.depth - 1 })

/-- Reports and records how a named rule ended, and remembers it. -/
def settle (g : Grammar ν α) (key : Memo.Key ν) (ending : Option (Ending α)) (run : Run ν α) :
    Run ν α :=
  let run :=
    match ending, (g.define key.name).errorName with
    | none, some description => run.fail key.position description
    | _, _ => run
  (run.record (.leave run.depth key.name key.position (ending.map (·.stop)))).remember key ending

/-- The answer of a named rule that ended in the given way: the scope is the one before it. -/
def resume (ending : Option (Ending α)) (scope : Scope) (run : Run ν α) : Answer ν α (Match α) :=
  match ending with
  | none => (.unmatched, run)
  | some ending => (.matched ⟨ending, scope⟩, run)

/-- Applies a named rule, whose body is applied by the given matcher, or finds its result
remembered. -/
def applyNamed (g : Grammar ν α) (m : Matcher ν α) (x : ν) (position : Nat) (scope : Scope)
    (run : Run ν α) : Answer ν α (Match α) :=
  let key := run.key x position
  match run.remembered? key with
  | some ending => resume ending scope run
  | none =>
    match g.applyBody m x position (run.record (.enter run.depth x position)) with
    | (.stopped cause, run) => (.stopped cause, run)
    | (.unmatched, run) => resume none scope (g.settle key none run)
    | (.matched result, run) =>
      resume (some result.toEnding) scope (g.settle key (some result.toEnding) run)

/-- Applies a rule at a place of a text that is read in the given way. -/
def applyBy (g : Grammar ν α) (reading : Reading) : Nat → Matcher ν α
  | 0, _, _, _, run => (.stopped .tooDeep, run)
  | limit + 1, rule, position, scope, run =>
    match rule with
    | .literal s =>
      if reading.hasAt s.toList position then run.passed (position + s.length) scope
      else run.missing position (quote s)
    | .charSet set =>
      match reading.look position with
      | .nowhere => (.stopped (.flaw .outsideTheText), run)
      | .ending => run.missing position set.render
      | .char c =>
        if set.contains c then run.passed (position + 1) scope
        else run.missing position set.render
    | .any =>
      match reading.look position with
      | .ending => run.missing position "any character"
      | .char _ | .nowhere => run.passed (position + 1) scope
    | .lineStart =>
      match reading.startsLine? position with
      | none => (.stopped (.flaw .outsideTheText), run)
      | some starts => if starts then run.passed position scope else (.unmatched, run)
    | .sequence rules =>
      Answer.andThen ((g.applyBy reading limit).applyParts rules position scope run) fun row run =>
      match mergeValues row.values with
      | .error values => (.stopped (.flaw (.mixture values)), run)
      | .ok value => (.matched ⟨⟨row.stop, value⟩, row.scope⟩, run)
    | .choice rules => (g.applyBy reading limit).applyChoice rules position scope run
    | .repetition rule least most =>
      Answer.andThen
        ((g.applyBy reading limit).applyTrips rule least most (reading.ahead position + 1) 0
          position scope run)
        fun trips run =>
      if trips.count < least then (.unmatched, run)
      else
        match g.repetitionValue rule trips.values with
        | .error mistake => (.stopped (.flaw (.badRule mistake)), run)
        | .ok value => (.matched ⟨⟨trips.stop, value⟩, trips.scope⟩, run)
    | .optional rule =>
      match g.applyBy reading limit rule position scope run with
      | (.unmatched, run) => run.passed position scope
      | answer => answer
    | .lookahead negative rule =>
      match g.applyBy reading limit rule position scope (run.hush 1) with
      | (.stopped cause, run) => (.stopped cause, run.hush (-1))
      | (.unmatched, run) =>
        if negative then (run.hush (-1)).passed position scope else (.unmatched, run.hush (-1))
      | (.matched _, run) =>
        if negative then (.unmatched, run.hush (-1)) else (run.hush (-1)).passed position scope
    | .capture name rule =>
      Answer.andThen (g.applyBy reading limit rule position scope run) fun result run =>
      let value := result.value.getD (.text (reading.slice position result.stop))
      (.matched ⟨⟨result.stop, some (.fields [(name, value)])⟩, result.scope⟩, run)
    | .build builder rule =>
      Answer.andThen (g.applyBy reading limit rule position scope run) fun result run =>
      match builder.make (.ofProduct result.value) with
      | .error refusal => (.stopped (.flaw (.refused refusal)), run)
      | .ok value => (.matched ⟨⟨result.stop, value⟩, result.scope⟩, run)
    | .bind name rule =>
      Answer.andThen (g.applyBy reading limit rule position scope run) fun result run =>
      let bound := (name, reading.slice position result.stop)
      (.matched { result with scope := bound :: result.scope }, run)
    | .backref name =>
      match scope.lookup name with
      | none => (.stopped (.flaw (.unbound name)), run)
      | some bound =>
        if reading.hasAt bound.toList position then run.passed (position + bound.length) scope
        else run.missing position (quote bound)
    | .named x =>
      match limit with
      | 0 => (.stopped .tooDeep, run)
      | limit + 1 => g.applyNamed (g.applyBy reading limit) x position scope run

/-- Applies a rule to a text at a position. -/
def apply (g : Grammar ν α) (text : Text) : Nat → Matcher ν α := g.applyBy text.reading

end Grammar

end Packrat
