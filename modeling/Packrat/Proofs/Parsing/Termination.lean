import Packrat.Proofs.Matching.Bounded
import Packrat.Proofs.Parsing.Accepting
import Packrat.Proofs.Parsing.Beyond
set_option autoImplicit false
set_option relaxedAutoImplicit false

/-!
# Parses that end

Two things could keep a parse from ending: a rule that is nested in itself without end, and a
repetition that goes on without end. A repetition only ever goes on from places that lie behind. So
every repetition ends, and its budget of trips is never used up; and where the grammar is bounded,
the nesting grows with the length of the text at most.

## Main definitions

* `Packrat.Matcher.Repeats` — how a repetition ends that has no budget, and after how many trips.

## Main results

* `Packrat.Matcher.Repeats.unique` — there is one way to end at most.
* `Packrat.Grammar.repeats` — every repetition ends, and just as it does under the budget.
* `Packrat.Grammar.parse_of_le` — a parse within its limit is the same under every larger one.
* `Packrat.Grammar.Solves.not_tooDeep_of_bounded` — a limit that grows with the text is not
  exceeded.
-/

namespace Packrat

variable {ν α : Type} [DecidableEq ν]

/-! ## Repetitions without a budget -/

namespace Matcher

/-- Without a budget, a repetition makes so many trips and then ends with the answer.

* `full` — there were as many trips as there may be.
* `unmatched`, `stopped` — the rule does not match, or stops the parse.
* `idle` — the rule matches and takes nothing, which it would do forever.
* `again` — the rule takes something, and the repetition goes on behind it. -/
inductive Repeats (m : Matcher ν α) (rule : Rule ν α) (least : Int) (most : Option Int) :
    Nat → Int → Nat → Scope → Run ν α → Answer ν α (Trips α) → Prop
  | full {count : Int} {position : Nat} {scope : Scope} {run : Run ν α}
      (hfull : (most.any fun most => decide (most ≤ count)) = true) :
      Repeats m rule least most 0 count position scope run
        (.matched ⟨⟨[], position, scope⟩, count⟩, run)
  | unmatched {count : Int} {position : Nat} {scope : Scope} {run after : Run ν α}
      (hopen : (most.any fun most => decide (most ≤ count)) = false)
      (h : m rule position scope run = (.unmatched, after)) :
      Repeats m rule least most 1 count position scope run
        (.matched ⟨⟨[], position, scope⟩, count⟩, after)
  | stopped {count : Int} {position : Nat} {scope : Scope} {run after : Run ν α} {cause : Stop α}
      (hopen : (most.any fun most => decide (most ≤ count)) = false)
      (h : m rule position scope run = (.stopped cause, after)) :
      Repeats m rule least most 1 count position scope run (.stopped cause, after)
  | idle {count : Int} {position : Nat} {scope : Scope} {run after : Run ν α} {first : Match α}
      (hopen : (most.any fun most => decide (most ≤ count)) = false)
      (h : m rule position scope run = (.matched first, after)) (hstop : first.stop = position) :
      Repeats m rule least most 1 count position scope run
        (.matched ⟨⟨[first.value], position, first.scope⟩, max (count + 1) least⟩, after)
  | again {trips : Nat} {count : Int} {position : Nat} {scope : Scope} {run after : Run ν α}
      {first : Match α} {answer : Answer ν α (Trips α)}
      (hopen : (most.any fun most => decide (most ≤ count)) = false)
      (h : m rule position scope run = (.matched first, after)) (hstop : first.stop ≠ position)
      (hothers : Repeats m rule least most trips (count + 1) first.stop first.scope after answer) :
      Repeats m rule least most (trips + 1) count position scope run
        (answer.andThen fun others run =>
          (.matched { others with values := first.value :: others.values }, run))

variable {m : Matcher ν α} {rule : Rule ν α} {least : Int} {most : Option Int}

/-- A repetition ends in one way at most. -/
lemma Repeats.unique {trips trips' : Nat} {count : Int} {position : Nat} {scope : Scope}
    {run : Run ν α} {answer answer' : Answer ν α (Trips α)}
    (h : m.Repeats rule least most trips count position scope run answer)
    (h' : m.Repeats rule least most trips' count position scope run answer') :
    trips = trips' ∧ answer = answer' := by
  induction h generalizing trips' answer' with
  | full hfull => cases h' <;> simp_all
  | unmatched hopen h => cases h' <;> simp_all
  | stopped hopen h => cases h' <;> simp_all
  | idle hopen h hstop => cases h' <;> simp_all
  | again hopen h hstop hothers ih =>
    cases h' with
    | again _ h' _ hothers' =>
      rw [h] at h'
      cases h'
      obtain ⟨rfl, rfl⟩ := ih hothers'
      exact ⟨rfl, rfl⟩
    | full | unmatched | stopped | idle => simp_all

end Matcher

namespace Grammar

variable {g : Grammar ν α} {t : Text} {env : ν → List Char → Option (Piece α)}

/-- A repetition with a budget for each character that is left and one more ends as it does without
one.

**Proof sketch.** Induction on the budget: a trip that is not the last one takes a character. -/
lemma repeats_applyTrips (limit : Nat) (rule : Rule ν α) (least : Int) (most : Option Int) :
    ∀ (budget : Nat) (count : Int) (position : Nat) (scope : Scope) (run : Run ν α),
    t.size - position < budget → run.Sound g t →
    ∃ trips ≤ t.size - position + 1,
      (g.apply t limit).Repeats rule least most trips count position scope run
        ((g.apply t limit).applyTrips rule least most budget count position scope run)
  | 0, _, _, _, _, hlt, _ => absurd hlt (Nat.not_lt_zero _)
  | budget + 1, count, position, scope, run, hlt, hrun => by
    rw [Matcher.applyTrips]
    cases hfull : most.any fun most => decide (most ≤ count) with
    | true => exact ⟨0, Nat.zero_le _, .full hfull⟩
    | false =>
      rcases h : g.apply t limit rule position scope run with ⟨outcome, after⟩
      cases outcome with
      | unmatched => exact ⟨1, by omega, .unmatched hfull h⟩
      | stopped cause => exact ⟨1, by omega, .stopped hfull h⟩
      | matched first =>
        have hsound := ((lawful_apply limit rule position scope).faithful run hrun).sound
        simp only [h] at hsound
        by_cases hidle : first.stop = position
        · simp only [hidle, if_true]
          exact ⟨1, by omega, .idle hfull h hidle⟩
        · obtain ⟨hlt', hle'⟩ := (stop_of_matched hrun (congrArg Prod.fst h)).resolve_left hidle
          obtain ⟨trips, hle, hothers⟩ :=
            repeats_applyTrips limit rule least most budget (count + 1)
            first.stop first.scope after (by omega) hsound
          simp only [hidle, if_false]
          exact ⟨trips + 1, by omega, .again hfull h hidle hothers⟩

/-- At every position and in every sound state, a repetition that has no budget ends, after so many
trips at most as characters are left and one more. It ends as the repetition under the budget
does. -/
theorem repeats (limit : Nat) (rule : Rule ν α) (least : Int) (most : Option Int) (count : Int)
    (position : Nat) (scope : Scope) {run : Run ν α} (hrun : run.Sound g t)
    (answer : Answer ν α (Trips α)) :
    (∃ trips ≤ t.size - position + 1,
        (g.apply t limit).Repeats rule least most trips count position scope run answer) ↔
      answer = (g.apply t limit).applyTrips rule least most (t.size - position + 1) count position
        scope run := by
  obtain ⟨trips, hle, hrepeats⟩ := repeats_applyTrips limit rule least most (t.size - position + 1)
    count position scope run (Nat.lt_succ_self _) hrun
  constructor
  · rintro ⟨_, -, h⟩
    exact (h.unique hrepeats).2
  · rintro rfl
    exact ⟨trips, hle, hrepeats⟩

/-! ## Limits -/

/-- A parse that does not exceed its limit is the same under every larger one. -/
theorem parse_of_le {memoize tracing : Bool} {low high : Nat} {start : Rule ν α} {text : String}
    (hle : low ≤ high) (h : ¬ TooDeep (g.parse ⟨memoize, tracing, low⟩ start text)) :
    g.parse ⟨memoize, tracing, high⟩ start text = g.parse ⟨memoize, tracing, low⟩ start text := by
  have hne := mt (tooDeep_conclude_iff (.ofString text) _).2 h
  simp only [run] at hne
  rw [parse, parse, run, run, g.apply_of_le hle hne]

/-- A parse of a bounded rule does not exceed a limit of the bound for each character of the text
and once more, whether or not results are remembered. -/
theorem Solves.not_tooDeep_of_bounded {text : String} (hs : g.Solves (.ofString text) env)
    {loops : ν → Bool} {bound : Nat}
    (h : ∀ x, loops x = true → g.bounded loops bound false (.named x) = true) {start : Rule ν α}
    (hstart : g.bounded loops bound false start = true) (memoize tracing : Bool) :
    ¬ TooDeep (g.parse ⟨memoize, tracing, bound * (text.length + 1)⟩ start text) := by
  have hplain : ¬ TooDeep (g.parse ⟨false, tracing, bound * (text.length + 1)⟩ start text) := by
    have hwithin : (Text.ofString text).Within (Text.ofString text).size false text.toList := by
      simp [Text.Within, Text.ofString, Text.size]
    have hends := hs.ends h hstart [] text.toList hwithin (.fresh false tracing) rfl
    rw [place_ofString, Text.size_ofString] at hends
    exact mt (tooDeep_conclude_iff _ _).1 hends
  cases memoize with
  | false => exact hplain
  | true => exact (g.parse_memoize start text tracing _ hplain).2

end Grammar

end Packrat
