import Packrat.Matching.Run
set_option autoImplicit false
set_option relaxedAutoImplicit false

/-!
# Matching in several steps

Sequences, choices and repetitions apply other rules, in the order in which they stand and each in
the state that the one before has left. How a single rule is applied is an argument here, a
*matcher*.

A repetition that has matched nothing in one trip would do so forever; it ends there, and counts as
having reached its least number of trips.

## Main definitions

* `Packrat.Matcher` — a way to apply any rule.
* `Packrat.Matcher.applyParts`, `Packrat.Matcher.applyChoice`, `Packrat.Matcher.applyTrips` —
  applying the parts of a sequence, the alternatives of a choice, and the rule of a repetition.
-/

namespace Packrat

variable {ν α : Type} [DecidableEq ν]

/-- An outcome and the state behind it. -/
abbrev Answer (ν α β : Type) [DecidableEq ν] := Outcome α β × Run ν α

/-- A way to apply any rule at any position, with any scope and in any state. -/
abbrev Matcher (ν α : Type) [DecidableEq ν] :=
  Rule ν α → Nat → Scope → Run ν α → Answer ν α (Match α)

/-- How a row of rules matched: what each of them produced, where the last one ended, and the
scope behind it. -/
structure Row (α : Type) where
  values : List (Option (Value α))
  stop : Nat
  scope : Scope

/-- How a repetition matched: what each trip produced, where the last one ended, the scope behind
it, and the number of trips. -/
structure Trips (α : Type) extends Row α where
  count : Int

/-- What becomes of a result. The other outcomes stay what they are. -/
def Answer.andThen {β γ : Type} (answer : Answer ν α β)
    (next : β → Run ν α → Answer ν α γ) : Answer ν α γ :=
  match answer with
  | (.matched result, run) => next result run
  | (.unmatched, run) => (.unmatched, run)
  | (.stopped cause, run) => (.stopped cause, run)

namespace Matcher

/-- Applies rules one behind the other. -/
def applyParts (m : Matcher ν α) : List (Rule ν α) → Nat → Scope → Run ν α → Answer ν α (Row α)
  | [], position, scope, run => (.matched ⟨[], position, scope⟩, run)
  | rule :: rules, position, scope, run =>
    Answer.andThen (m rule position scope run) fun first run =>
    Answer.andThen (m.applyParts rules first.stop first.scope run) fun others run =>
    (.matched { others with values := first.value :: others.values }, run)

/-- Applies the first rule that matches. -/
def applyChoice (m : Matcher ν α) : List (Rule ν α) → Nat → Scope → Run ν α → Answer ν α (Match α)
  | [], _, _, run => (.unmatched, run)
  | rule :: rules, position, scope, run =>
    match m rule position scope run with
    | (.unmatched, run) => m.applyChoice rules position scope run
    | answer => answer

/-- Applies a rule over and over, at most so many times and not more often than the budget
allows. -/
def applyTrips (m : Matcher ν α) (rule : Rule ν α) (least : Int) (most : Option Int) :
    Nat → Int → Nat → Scope → Run ν α → Answer ν α (Trips α)
  | 0, count, position, scope, run => (.matched ⟨⟨[], position, scope⟩, count⟩, run)
  | budget + 1, count, position, scope, run =>
    if most.any fun most => decide (most ≤ count) then
      (.matched ⟨⟨[], position, scope⟩, count⟩, run)
    else
      match m rule position scope run with
      | (.unmatched, run) => (.matched ⟨⟨[], position, scope⟩, count⟩, run)
      | (.stopped cause, run) => (.stopped cause, run)
      | (.matched first, run) =>
        if first.stop = position then
          (.matched ⟨⟨[first.value], position, first.scope⟩, max (count + 1) least⟩, run)
        else
          Answer.andThen
            (m.applyTrips rule least most budget (count + 1) first.stop first.scope run)
            fun others run =>
          (.matched { others with values := first.value :: others.values }, run)

end Matcher

end Packrat
