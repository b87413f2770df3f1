import Packrat.Matching.Apply
set_option autoImplicit false
set_option relaxedAutoImplicit false

/-!
# One equation per form of rule

Application is one function by recursion on the limit. These equations say what it does to each
form of rule, so that reasoning about one form need not unfold the others.

## Main results

* `Packrat.Grammar.apply_zero` and one equation `Packrat.Grammar.apply_…` per form.
-/

namespace Packrat.Grammar

variable {ν α : Type} [DecidableEq ν]
variable (g : Grammar ν α) (text : Text) (limit position : Nat) (scope : Scope) (run : Run ν α)

/-- Under a limit of zero no rule can be applied. -/
theorem apply_zero (rule : Rule ν α) :
    g.apply text 0 rule position scope run = (.stopped .tooDeep, run) := rfl

/-- A literal matches its own characters, and is what is missing where they do not stand. -/
theorem apply_literal (s : String) :
    g.apply text (limit + 1) (.literal s) position scope run =
      if text.hasAt s.toList position then run.passed (position + s.length) scope
      else run.missing position (quote s) := rfl

/-- A set of characters matches one character of the set. -/
theorem apply_charSet (set : CharSet) :
    g.apply text (limit + 1) (.charSet set) position scope run =
      if (text.char? position).any set.contains then run.passed (position + 1) scope
      else run.missing position set.render := by
  simp only [apply, applyBy, Text.reading, Text.look]
  cases text.char? position <;> rfl

/-- Any character is matched where there is one. -/
theorem apply_any :
    g.apply text (limit + 1) .any position scope run =
      if (text.char? position).isSome then run.passed (position + 1) scope
      else run.missing position "any character" := by
  simp only [apply, applyBy, Text.reading, Text.look]
  cases text.char? position <;> rfl

/-- The text starts with a line. -/
theorem apply_lineStart_zero :
    g.apply text (limit + 1) .lineStart 0 scope run = run.passed 0 scope := rfl

/-- Behind a line feed or a carriage return a line starts. It is a flaw to ask for this where no
character is in front. -/
theorem apply_lineStart_succ :
    g.apply text (limit + 1) .lineStart (position + 1) scope run =
      match text.char? position with
      | none => (.stopped (.flaw .outsideTheText), run)
      | some c => if c = '\n' ∨ c = '\r' then run.passed (position + 1) scope
        else (.unmatched, run) := by
  simp only [apply, applyBy, Text.reading, Text.startsLine?]
  cases text.char? position <;> simp [endsLine]

/-- A sequence applies its parts one behind the other and merges what they produce. -/
theorem apply_sequence (rules : List (Rule ν α)) :
    g.apply text (limit + 1) (.sequence rules) position scope run =
      Answer.andThen ((g.apply text limit).applyParts rules position scope run) fun row run =>
      match mergeValues row.values with
      | .error values => (.stopped (.flaw (.mixture values)), run)
      | .ok value => (.matched ⟨⟨row.stop, value⟩, row.scope⟩, run) := rfl

/-- A choice applies its alternatives in order. -/
theorem apply_choice (rules : List (Rule ν α)) :
    g.apply text (limit + 1) (.choice rules) position scope run =
      (g.apply text limit).applyChoice rules position scope run := rfl

/-- A repetition makes its trips, fails if they are too few, and may make a list of what they
produce. -/
theorem apply_repetition (rule : Rule ν α) (least : Int) (most : Option Int) :
    g.apply text (limit + 1) (.repetition rule least most) position scope run =
      Answer.andThen
        ((g.apply text limit).applyTrips rule least most (text.size - position + 1) 0 position
          scope run)
        fun trips run =>
      if trips.count < least then (.unmatched, run)
      else
        match g.repetitionValue rule trips.values with
        | .error mistake => (.stopped (.flaw (.badRule mistake)), run)
        | .ok value => (.matched ⟨⟨trips.stop, value⟩, trips.scope⟩, run) := rfl

/-- An option passes without a match, where it stands, if its rule does not match. -/
theorem apply_optional (rule : Rule ν α) :
    g.apply text (limit + 1) (.optional rule) position scope run =
      match g.apply text limit rule position scope run with
      | (.unmatched, run) => run.passed position scope
      | answer => answer := rfl

/-- A lookahead applies its rule quietly and stays where it is, whatever comes of it. -/
theorem apply_lookahead (negative : Bool) (rule : Rule ν α) :
    g.apply text (limit + 1) (.lookahead negative rule) position scope run =
      match g.apply text limit rule position scope (run.hush 1) with
      | (.stopped cause, run) => (.stopped cause, run.hush (-1))
      | (.unmatched, run) =>
        if negative then (run.hush (-1)).passed position scope else (.unmatched, run.hush (-1))
      | (.matched _, run) =>
        if negative then (.unmatched, run.hush (-1))
        else (run.hush (-1)).passed position scope := rfl

/-- A capture makes a field of the value of its rule, or of the text that the rule has matched. -/
theorem apply_capture (name : String) (rule : Rule ν α) :
    g.apply text (limit + 1) (.capture name rule) position scope run =
      Answer.andThen (g.apply text limit rule position scope run) fun result run =>
      (.matched ⟨⟨result.stop, some (.fields [(name,
        result.value.getD (.text (text.slice position result.stop)))])⟩, result.scope⟩, run) := rfl

/-- What is built is made from the product of the rule, and the parse stops if the builder refuses
it. -/
theorem apply_build (builder : Builder α) (rule : Rule ν α) :
    g.apply text (limit + 1) (.build builder rule) position scope run =
      Answer.andThen (g.apply text limit rule position scope run) fun result run =>
      match builder.make (.ofProduct result.value) with
      | .error refusal => (.stopped (.flaw (.refused refusal)), run)
      | .ok value => (.matched ⟨⟨result.stop, value⟩, result.scope⟩, run) := rfl

/-- A binding adds the matched text to the scope. -/
theorem apply_bind (name : String) (rule : Rule ν α) :
    g.apply text (limit + 1) (.bind name rule) position scope run =
      Answer.andThen (g.apply text limit rule position scope run) fun result run =>
      (.matched { result with
        scope := (name, text.slice position result.stop) :: result.scope }, run) := rfl

/-- A back-reference matches the text that is bound last under its name; it is a flaw if none is. -/
theorem apply_backref (name : String) :
    g.apply text (limit + 1) (.backref name) position scope run =
      match scope.lookup name with
      | none => (.stopped (.flaw (.unbound name)), run)
      | some bound =>
        if text.hasAt bound.toList position then run.passed (position + bound.length) scope
        else run.missing position (quote bound) := rfl

/-- A named rule needs a limit of two at least, one for itself and one for its body. -/
theorem apply_named_one (x : ν) :
    g.apply text 1 (.named x) position scope run = (.stopped .tooDeep, run) := rfl

/-- A named rule applies its body two levels further down. -/
theorem apply_named (x : ν) :
    g.apply text (limit + 2) (.named x) position scope run =
      g.applyNamed (g.apply text limit) x position scope run := rfl

end Packrat.Grammar
