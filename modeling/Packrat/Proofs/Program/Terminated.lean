import Packrat.Proofs.Program.InPlace
import Packrat.Proofs.Program.Steps
set_option autoImplicit false
set_option relaxedAutoImplicit false

/-!
# How expressions end

Behind the object of an expression stands a semicolon, a line break, a comment or the end of the
text, perhaps with spaces in front. Nothing of the kind is asked for where the object itself has
ended a line. Only a document ends its line, so that no other object goes without: a pair ends as
its value does, a range as a number or a character, and a hash or a list with its closing mark.

## Main definitions

* `Packrat.Program.ClosedByDocument` — objects whose last piece is a document with its closing line
  break.
* `Packrat.Program.Terminates` — what stands between the end of an object and that of its
  expression.

## Main results

* `Packrat.Program.Spells.closedByDocument` — an object that ends its line does so with a document.
* `Packrat.Program.expression_terminated` — how every expression ends, wherever it stands.
-/

namespace Packrat.Program

/-- The last piece of the object is a document, which ends with its closing line break: the object
is this document, or a pair whose value ends so. -/
inductive ClosedByDocument : List Char → Node → Prop
  | document {cs : List Char} {v : Node} : Accepts .hereDoc cs v → EndsLine cs →
      ClosedByDocument cs v
  | value {a pad pad' b : List Char} {k w : Node} : Accepts .simpleObject a k → Spaces pad →
      Spaces pad' →
      ClosedByDocument b w → ClosedByDocument (a ++ (pad ++ ':' :: (pad' ++ b))) (.keyValue k w)

/-- What may stand between an object and the end of its expression, in front of the rest of the
text.

* `document` — nothing, if the object ends with the closing line break of a document.
* `semicolon`, `lineBreak` — spaces and a mark, which belongs to the expression. A carriage return
  with a line feed behind it is one line break.
* `comment`, `textEnd` — spaces in front of a comment or of the end of the text, which do not. -/
inductive Terminates (o : List Char) (v : Node) : List Char → List Char → Prop
  | document {rest : List Char} : ClosedByDocument o v → Terminates o v [] rest
  | semicolon {pad rest : List Char} : Spaces pad → Terminates o v (pad ++ [';']) rest
  | lineBreak {pad b rest : List Char} : Spaces pad → Break b →
      (b = ['\r'] → rest.head? ≠ some '\n') → Terminates o v (pad ++ b) rest
  | comment {pad rest : List Char} : Spaces pad → Terminates o v pad ('#' :: rest)
  | textEnd {pad : List Char} : Spaces pad → Terminates o v pad []

/-! ## Objects that end their line -/

/-- An object that ends its line does so with the closing line break of a document.

**Proof sketch.** Induction on the object. Of the simple objects, only documents end their line. -/
theorem Spells.closedByDocument {closed : Prop} {o : List Char} {v : Node} (h : Spells closed o v)
    (hline : EndsLine o) : ClosedByDocument o v := by
  induction h, hline using Spells.induction_endsLine with
  | document hread _ hline => exact .document (accepts_hereDoc.2 hread) hline
  | value ha _ hpad hpad' _ _ ih => exact .value ha hpad hpad' ih

/-! ## What ends an expression -/

/-- A carriage return that is a line break on its own has no line feed behind it. -/
lemma head?_of_behind {rest : List Char} (h : behind ['\r'] rest = rest) :
    rest.head? ≠ some '\n' := by
  intro hhead
  obtain ⟨more, rfl⟩ := List.head?_eq_some_iff.1 hhead
  simp [behind] at h

/-- Spaces and what ends an expression behind them. -/
lemma exists_terminates {o left rest : List Char} {v : Node}
    (h : terminated? (left.dropWhile isSpace) = some rest) :
    ∃ mark, left = mark ++ rest ∧ Terminates o v mark rest := by
  obtain ⟨pad, hpad, hleft⟩ := exists_spaces left
  generalize left.dropWhile isSpace = more at h hleft
  subst hleft
  rcases Option.or_eq_some_iff.1 h with hmark | ⟨-, hothers⟩
  · obtain ⟨c, hc, rfl⟩ := dropChar?_eq_some.1 hmark
    obtain rfl := eq_of_beq hc
    exact ⟨pad ++ [';'], by simp, .semicolon hpad⟩
  rcases Option.or_eq_some_iff.1 hothers with hbreak | ⟨-, hstays⟩
  · obtain ⟨b, hb, rfl, hrest⟩ := dropBreak?_eq_some.1 hbreak
    refine ⟨pad ++ b, by simp, .lineBreak hpad hb ?_⟩
    rintro rfl
    exact head?_of_behind hrest
  · rw [Option.ite_none_right_eq_some, Option.some.injEq] at hstays
    obtain ⟨hend, rfl⟩ := hstays
    rcases hend with rfl | hcomment
    · exact ⟨pad, rfl, .textEnd hpad⟩
    · obtain ⟨cs, rfl⟩ := List.head?_eq_some_iff.1 hcomment
      exact ⟨pad, rfl, .comment hpad⟩

/-- An expression has an object in front, and behind it what ends the expression. -/
lemma exists_object_terminates {cs rest : List Char} {v : Node}
    (h : expressionAt cs = some (v, rest)) :
    ∃ o mark, o ≠ [] ∧ cs = o ++ (mark ++ rest) ∧ objectAt cs = some (v, mark ++ rest) ∧
      Terminates o v mark rest := by
  obtain ⟨left, hobject, -⟩ := objectAt_of_expressionAt h
  obtain ⟨o, rfl, hfound⟩ := exists_found hobject
  by_cases hline : EndsLine o
  · rw [expressionAt_of_endsLine hobject hline] at h
    cases h
    exact ⟨o, [], hfound.ne_nil, rfl, hobject, .document (hfound.spells.closedByDocument hline)⟩
  · rw [expressionAt_of_object hobject hline] at h
    obtain ⟨rest, hterminated, ⟨⟩⟩ := Option.map_eq_some_iff.1 h
    obtain ⟨mark, rfl, hmark⟩ := exists_terminates hterminated
    exact ⟨o, mark, hfound.ne_nil, rfl, hobject, hmark⟩

/-- No expression goes without an end, wherever it stands and in whatever sound state it is sought:
it matches an object and what ends it behind that, and stands for the object.

**Proof sketch.** An object that ends its line is closed by a document. Behind any other, what ends
the expression is read. -/
theorem expression_terminated (text : String) (position : Nat) (scope : Scope) {limit : Nat}
    {run : Run Phrase Node} (hrun : run.Sound grammar (.ofString text)) {result : Match Node}
    (h : (grammar.apply (.ofString text) limit (.named .expression) position scope run).1 =
      .matched result) :
    ∃ o v mark rest, text.toList.drop position = o ++ (mark ++ rest) ∧
      grammar.Yields (.ofString text) (.named .object) position scope
        (.matched ⟨⟨position + o.length, some (.object v)⟩, scope⟩) ∧
      Terminates o v mark rest ∧
      result = ⟨⟨position + o.length + mark.length, some (.object v)⟩, scope⟩ := by
  obtain ⟨chars, rest, v, hahead, hread, rfl⟩ :=
    (readBy_expression.apply_eq_matched_iff hrun (by rw [h]; nofun) _).1 h
  obtain ⟨o, mark, hne, hchars, hobject, hmark⟩ := exists_object_terminates hread
  have hp : position ≤ text.length := by
    by_contra hbeyond
    have hnil : text.toList.drop position = [] :=
      List.drop_eq_nil_of_le (by rw [String.length_toList]; exact Nat.le_of_not_le hbeyond)
    rw [hahead, hchars] at hnil
    exact hne (List.append_eq_nil_iff.1 hnil).1
  obtain ⟨outcome, hyields⟩ := exists_yields_named .object scope hp
  have hmatched := (readBy_object.yields_matched_iff hyields).2
    ⟨o, mark ++ rest, v, by rw [hahead, hchars], by rw [← hchars, hobject], rfl⟩
  have hlength : chars.length = o.length + mark.length := by
    have hall := congrArg List.length hchars
    simp only [List.length_append] at hall
    omega
  refine ⟨o, v, mark, rest, by rw [hahead, hchars], by rwa [hmatched] at hyields, hmark, ?_⟩
  rw [hlength, Nat.add_assoc]

/-- A pair whose value is a document, in front of a number. -/
theorem expression_terminated_document :
    (Run.fresh true false).Sound grammar (.ofString ":k:<<A\nA\n1") ∧
      ∃ result,
        (grammar.apply (.ofString ":k:<<A\nA\n1") 1000 (.named .expression) 0 []
          (.fresh true false)).1 =
          .matched result ∧ result.stop = 9 ∧
        ∃ o v mark rest, (":k:<<A\nA\n1").toList.drop 0 = o ++ (mark ++ rest) ∧
          grammar.Yields (.ofString ":k:<<A\nA\n1") (.named .object) 0 []
            (.matched ⟨⟨0 + o.length, some (.object v)⟩, []⟩) ∧
          Terminates o v mark rest ∧
          result = ⟨⟨0 + o.length + mark.length, some (.object v)⟩, []⟩ := by
  have hsound : (Run.fresh true false).Sound grammar (.ofString ":k:<<A\nA\n1") :=
    Run.sound_fresh true false
  have hends : (match (grammar.apply (.ofString ":k:<<A\nA\n1") 1000 (.named .expression) 0 []
      (.fresh true false)).1 with
      | .matched result => decide (result.stop = 9)
      | _ => false) = true := by
    decide +kernel
  cases hout : (grammar.apply (.ofString ":k:<<A\nA\n1") 1000 (.named .expression) 0 []
      (.fresh true false)).1 with
  | matched result =>
    rw [hout] at hends
    exact ⟨hsound, result, rfl, of_decide_eq_true hends, expression_terminated _ 0 [] hsound hout⟩
  | unmatched =>
    rw [hout] at hends
    cases hends
  | stopped cause =>
    rw [hout] at hends
    cases hends

end Packrat.Program
