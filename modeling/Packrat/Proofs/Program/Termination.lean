import Packrat.Proofs.Parsing.Termination
import Packrat.Proofs.Program.Solution
set_option autoImplicit false
set_option relaxedAutoImplicit false

/-!
# Parsing programs always ends

Objects inside objects stand behind a mark or a colon, and nothing else in a program is nested in
itself. So the nesting of rules is bounded by the length of the text, however a text looks; and no
repetition goes on forever.

## Main definitions

* `Packrat.Program.nestingBound` — how deep rules are nested from one object to the next at most.

## Main results

* `Packrat.Program.parse_ends` — parses end within a limit that grows with the text.
-/

namespace Packrat.Program

/-- How deep rules are nested at most for each character of a text, and once more. -/
def nestingBound : Nat := 55

/-- Between a phrase and the next object behind a character, the nesting is bounded. -/
lemma bounded_phrase (x : Phrase) :
    grammar.bounded (· == .object) nestingBound false (.named x) = true := by
  have hall : Phrase.all.all (fun x =>
      grammar.bounded (· == .object) nestingBound false (.named x)) = true := by
    decide +kernel
  exact Phrase.eq_true_of_all hall x

/-- Under a limit that is large enough for the length of the text, no parse exceeds it, and every
larger limit gives the same outcome. Under any limit, at every position of the text and in every
sound state, a repetition ends that has no budget, and does so just as under its budget. -/
theorem parse_ends (x : Phrase) (text : String) (memoize tracing : Bool) {limit : Nat}
    (h : nestingBound * (text.length + 1) ≤ limit) :
    (¬ TooDeep (grammar.parse ⟨memoize, tracing, limit⟩ (.named x) text) ∧
      grammar.parse ⟨memoize, tracing, limit⟩ (.named x) text =
        grammar.parse ⟨memoize, tracing, nestingBound * (text.length + 1)⟩ (.named x) text) ∧
    ∀ (any : Nat) (rule : Pattern) (least : Int) (most : Option Int) (count : Int) (position : Nat)
      (scope : Scope) (run : Run Phrase Node), position ≤ text.length →
      run.Sound grammar (.ofString text) →
      ∃ trips ≤ text.length - position + 1,
        (grammar.apply (.ofString text) any).Repeats rule least most trips count position scope run
          ((grammar.apply (.ofString text) any).applyTrips rule least most
            (text.length - position + 1) count position scope run) := by
  have hs := solves_grammar text
  constructor
  · have hdeep := hs.not_tooDeep_of_bounded (fun x _ => bounded_phrase x) (bounded_phrase x) memoize
      tracing
    have hsame := Grammar.parse_of_le h hdeep
    exact ⟨hsame ▸ hdeep, hsame⟩
  · intro any rule least most count position scope run _ hrun
    have hiff := Grammar.repeats any rule least most count position scope hrun
    rw [Text.size_ofString] at hiff
    exact (hiff _).2 rfl

/-- A list in a list, and the repetition that passes over all of its characters. -/
theorem parse_ends_list :
    nestingBound * ("[[1]]".length + 1) ≤ 330 ∧
      (¬ TooDeep (grammar.parse ⟨true, false, 330⟩ (.named .program) "[[1]]") ∧
        grammar.parse ⟨true, false, 330⟩ (.named .program) "[[1]]" =
          grammar.parse ⟨true, false, nestingBound * ("[[1]]".length + 1)⟩ (.named .program)
            "[[1]]") ∧
      ∃ trips ≤ "[[1]]".length - 0 + 1,
        (grammar.apply (.ofString "[[1]]") 330).Repeats .any 0 none trips 0 0 [] (.fresh true false)
          ((grammar.apply (.ofString "[[1]]") 330).applyTrips .any 0 none
            ("[[1]]".length - 0 + 1) 0 0 [] (.fresh true false)) := by
  have h : nestingBound * ("[[1]]".length + 1) ≤ 330 := by decide
  have hends := parse_ends .program "[[1]]" true false h
  exact ⟨h, hends.1, hends.2 330 .any 0 none 0 0 [] (.fresh true false) (Nat.zero_le _)
    (Run.sound_fresh true false)⟩

end Packrat.Program
