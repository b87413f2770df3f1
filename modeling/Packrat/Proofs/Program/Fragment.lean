import Packrat.Program.Grammar
import Packrat.Proofs.Matching.Fragment
set_option autoImplicit false
set_option relaxedAutoImplicit false

/-!
# Phrases in a fragment and in place

Whatever cannot come to look for the start of a line means the same in a fragment of a text as in
place. The grammar of programs does look for it, behind an object that may have ended its own line.
But an object takes a character at least, so there it makes no difference what stands in front of
the fragment.

## Main definitions

* `Packrat.Program.Phrase.takes` — phrases which take a character wherever they match.

## Main results

* `Packrat.Program.portable_phrase` — every phrase means the same in a fragment as in place.
* `Packrat.Program.portable` — so does every rule that does not reach the start of a line.
-/

namespace Packrat.Program

/-- Phrases which take a character wherever they match: objects, and what they are made of. -/
def Phrase.takes : Phrase → Bool
  | .object | .simpleObject | .recursiveObject | .nilLiteral | .boolean | .trueLiteral
  | .falseLiteral | .numeric | .decimal | .integer | .digit | .digits | .character | .string
  | .symbolString | .singleQuotedString | .doubleQuotedString | .hereDoc | .regularExpression
  | .keyValuePair | .range | .hashLiteral | .list => true
  | _ => false

/-- Whether some phrases take a character can be told from what each of them stands for. -/
lemma advancing_of_all {known : Phrase → Bool}
    (h : Phrase.all.all (fun x => !known x || (body x).advances known) = true) :
    grammar.Advancing known := by
  rintro x _ hx ⟨⟩
  simpa [hx] using Phrase.eq_true_of_all h x

/-- Phrases that take a character wherever they match can be told from their bodies. -/
lemma advancing_takes : grammar.Advancing Phrase.takes := advancing_of_all (by decide +kernel)

/-- Phrases look for the start of a line only behind an object. -/
lemma sheltered_body (x : Phrase) : (body x).sheltered Phrase.takes false = true := by
  have hall : Phrase.all.all (fun x => (body x).sheltered Phrase.takes false) = true := by
    decide +kernel
  exact Phrase.eq_true_of_all hall x

/-- Every phrase means the same in a fragment as in place. -/
lemma portable_phrase (x : Phrase) : grammar.Portable (.named x) :=
  Grammar.portable_of_sheltered advancing_takes (by rintro y _ - ⟨⟩; exact sheltered_body y) rfl

/-- A rule that does not reach the start of a line means the same in a fragment as in place, in
every grammar; and so does every phrase of a program, though some of them do reach it.

**Proof sketch.** A rule that does not reach the start of a line does not look for it, and neither
do the bodies of the named rules that it reaches. -/
theorem portable :
    (∀ (ν α : Type) [DecidableEq ν] (g : Grammar ν α) (rule : Rule ν α),
      ¬ g.Reaches rule .lineStart → g.Portable rule) ∧
    ∀ x : Phrase, grammar.Portable (.named x) := by
  refine ⟨fun ν α _ g rule h => ?_, portable_phrase⟩
  have hnone : g.Advancing fun _ => false := nofun
  refine Grammar.portable_of_sheltered hnone (fun x body hreach hbody => ?_)
    (Grammar.sheltered_of_not_reaches h false)
  exact Grammar.sheltered_of_not_reaches
    (fun hline => h (hreach.trans (.head (.body hbody) hline))) false

/-- A list behind a line of its own, and the bracket that opens it. -/
theorem portable_list :
    ¬ grammar.Reaches (.literal "[") .lineStart ∧ 0 ≤ "[1]".length ∧
      (grammar.apply (.ofString ("nil\n" ++ "[1]")) 1 (.literal "[") ("nil\n".length + 0) []
          (.fresh true false)).1 =
        (grammar.apply (.ofString "[1]") 1 (.literal "[") 0 [] (.fresh true false)).1.map
          (Match.shift "nil\n".length) ∧
      (grammar.apply (.ofString ("nil\n" ++ "[1]")) 1000 (.named .expression)
          ("nil\n".length + 0) [] (.fresh true false)).1 =
        (grammar.apply (.ofString "[1]") 1000 (.named .expression) 0 [] (.fresh true false)).1.map
          (Match.shift "nil\n".length) := by
  have hbracket : ¬ grammar.Reaches (.literal "[") .lineStart := by
    intro h
    rcases h.cases_head with heq | ⟨_, ⟨hchild⟩ | _, _⟩
    · cases heq
    · cases hchild
  have hp : 0 ≤ "[1]".length := Nat.zero_le _
  exact ⟨hbracket, hp,
    (portable.1 _ _ grammar (.literal "[") hbracket "nil\n" "[1]" 1 0 [] true false hp).1,
    (portable.2 .expression "nil\n" "[1]" 1000 0 [] true false hp).1⟩

end Packrat.Program
