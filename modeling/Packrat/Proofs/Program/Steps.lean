import Packrat.Proofs.Program.Unordered
set_option autoImplicit false
set_option relaxedAutoImplicit false

/-!
# Reading a program step by step

The statements of a program are those of its first piece and those of what is left behind it. A
comment behind an object need not be seen as a part of one statement with it: the statements are the
same if it is read as a piece of its own.

## Main results

* `Packrat.Program.statementsAt_blanks` — blanks between statements do not matter.
* `Packrat.Program.statementsAt_comment`, `Packrat.Program.statementsAt_expression` — the first
  statement and the others.
* `Packrat.Program.exists_piece` — a program starts with a blank, a comment or an expression.
* `Packrat.Program.parse_program_iff` — programs are accepted just if no characters are left.
-/

namespace Packrat.Program

variable {cs rest : List Char} {v : Node}

/-- Behind a step, the statements ahead are those that are left. -/
lemma statementsAt_of_step {nodes : List Node} (h : statementStep cs = some (nodes, rest)) :
    statementsAt cs = (nodes ++ (statementsAt rest).1, (statementsAt rest).2) := by
  simp only [statementsAt, many_of_some advances_statementStep h, List.flatten_cons]

/-- Without a step, there are no statements ahead. -/
lemma statementsAt_of_none (h : statementStep cs = none) : statementsAt cs = ([], cs) := by
  simp only [statementsAt, many_of_none h, List.flatten_nil]

/-- At the end of the text, there are no statements ahead. -/
lemma statementsAt_nil : statementsAt [] = ([], []) := by
  refine statementsAt_of_none (Option.eq_none_iff_forall_ne_some.2 fun ⟨nodes, rest⟩ h => ?_)
  have hlt := advances_statementStep.length_lt h
  simp at hlt

/-! ## Blanks -/

/-- No comment is read where its mark is not ahead. -/
lemma commentAt_of_head (h : cs.head? ≠ some '#') : commentAt cs = none := by
  have hsome := isSome_commentAt cs
  rw [beq_false_of_ne h] at hsome
  exact Option.isNone_iff_eq_none.1 (Option.isSome_eq_false_iff.1 hsome)

/-- No expression is read without an object. -/
lemma expressionAt_eq_none (h : objectAt cs = none) : expressionAt cs = none := by
  simp only [expressionAt, h]
  rfl

/-- No statement starts with a blank. -/
lemma statementAt_of_blank {c : Char} (hc : isBlank c = true) : statementAt (c :: cs) = none := by
  have hcomment : commentAt (c :: cs) = none := by
    refine commentAt_of_head fun hmark => ?_
    obtain rfl : c = '#' := Option.some.inj hmark
    exact absurd hc (by decide)
  have hobject : objectAt (c :: cs) = none := by
    refine starts_objectAt.eq_none fun d hd => ?_
    obtain rfl : c = d := Option.some.inj hd
    by_contra hfirst
    rw [isBlank_of_objectFirst (by simpa using hfirst)] at hc
    cases hc
  simp only [statementAt, hcomment, expressionAt_eq_none hobject]
  rfl

/-- Blanks in front of statements are passed over, a line break in one step or in two. -/
lemma statementsAt_dropWhile : ∀ cs : List Char,
    statementsAt (cs.dropWhile isBlank) = statementsAt cs
  | [] => rfl
  | c :: cs => by
    by_cases hc : isBlank c = true
    · obtain ⟨rest, hrest⟩ : ∃ rest, dropBlank? (c :: cs) = some rest := by
        refine Option.ne_none_iff_exists'.1 fun hnone => ?_
        rw [dropBlank?_eq_none.1 hnone c rfl] at hc
        cases hc
      have hstep : statementStep (c :: cs) = some ([], rest) := by
        simp only [statementStep, statementAt_of_blank hc, hrest, Option.none_or, Option.map_some]
      obtain ⟨a, hne, ha, hcs⟩ := dropBlank?_eq_some hrest
      have hlt := advances_statementStep.length_lt hstep
      rw [statementsAt_of_step hstep, hcs, List.dropWhile_append_of_pos ha, List.nil_append]
      exact statementsAt_dropWhile rest
    · rw [List.dropWhile_cons_of_neg hc]
termination_by cs => cs.length
decreasing_by exact hlt

/-- Blanks in front of statements make no difference. -/
lemma statementsAt_blanks {s : List Char} (hs : Blanks s) (r : List Char) :
    statementsAt (s ++ r) = statementsAt r := by
  rw [← statementsAt_dropWhile (s ++ r), ← statementsAt_dropWhile r,
    List.dropWhile_append_of_pos fun c hc => isBlank_iff.2 (hs c hc)]

/-- Nor does it make a difference to drop the spaces in front of them. -/
lemma statementsAt_dropSpaces (cs : List Char) :
    statementsAt (cs.dropWhile isSpace) = statementsAt cs := by
  obtain ⟨s, hs, hcs⟩ := exists_spaces cs
  have hblanks : Blanks s := fun c hc => (hs c hc).imp_right .inl
  rw [← statementsAt_blanks hblanks, ← hcs]

/-- A line feed that is taken in is a blank. -/
lemma statementsAt_behind (a r : List Char) : statementsAt (behind a r) = statementsAt r := by
  rw [← statementsAt_dropWhile, dropWhile_behind, statementsAt_dropWhile]

/-! ## Comments and expressions -/

/-- A comment is the first statement. -/
lemma statementsAt_comment (h : commentAt cs = some (v, rest)) :
    statementsAt cs = (v :: (statementsAt rest).1, (statementsAt rest).2) := by
  have hstep : statementStep cs = some ([v], rest) := by
    simp only [statementStep, statementAt, h, Option.some_or]
  rw [statementsAt_of_step hstep, List.singleton_append]

/-- An expression is the first statement. A comment behind it is the first of what is left. -/
lemma statementsAt_expression (h : expressionAt cs = some (v, rest)) :
    statementsAt cs = (v :: (statementsAt rest).1, (statementsAt rest).2) := by
  have hcomment : commentAt cs = none := by
    obtain ⟨left, hobject, -⟩ := objectAt_of_expressionAt h
    refine commentAt_of_head fun hmark => ?_
    exact absurd (Reader.Starts.head starts_objectAt hobject hmark) (by decide)
  cases hbehind : commentAt (rest.dropWhile isSpace) with
  | none =>
    have hstep : statementStep cs = some ([v], rest.dropWhile isSpace) := by
      simp only [statementStep, statementAt, hcomment, h, hbehind, bind, Option.bind_some,
        Option.some_or]
    rw [statementsAt_of_step hstep, statementsAt_dropSpaces, List.singleton_append]
  | some result =>
    obtain ⟨w, left⟩ := result
    have hstep : statementStep cs = some ([v, w], left) := by
      simp only [statementStep, statementAt, hcomment, h, hbehind, bind, Option.bind_some,
        Option.some_or]
    rw [statementsAt_of_step hstep, ← statementsAt_dropSpaces rest, statementsAt_comment hbehind]
    rfl

/-- An object up to the end of its line is an expression if something ends it. -/
lemma expressionAt_of_object {o r : List Char} (h : objectAt (o ++ r) = some (v, r))
    (hline : ¬ EndsLine o) :
    expressionAt (o ++ r) = (terminated? (r.dropWhile isSpace)).map fun rest => (v, rest) := by
  simp only [expressionAt, h, front_append, if_neg hline, bind, Option.bind_some]
  cases terminated? (r.dropWhile isSpace) <;> rfl

/-- An object that ends its line is an expression. -/
lemma expressionAt_of_endsLine {o r : List Char} (h : objectAt (o ++ r) = some (v, r))
    (hline : EndsLine o) : expressionAt (o ++ r) = some (v, r) := by
  simp only [expressionAt, h, front_append, if_pos hline, bind, Option.bind_some]

/-- What ends an expression does not continue its object. -/
lemma Ends.of_pad {o pad : List Char} {mark : Char} (hline : ¬ EndsLine o) (hpad : Spaces pad)
    (hmark : mark = ';' ∨ mark = '#' ∨ endsLine mark = true) (q : List Char) :
    Ends o (pad ++ mark :: q) := by
  have hkind : wordSet.contains mark = false ∧ isSpace mark = false ∧ mark ≠ '.' ∧ mark ≠ ':' := by
    rcases hmark with rfl | rfl | hmark
    · decide
    · decide
    · simp only [endsLine, decide_eq_true_eq] at hmark
      rcases hmark with rfl | rfl <;> decide
  obtain ⟨hword, hspace, hpoint, hcolon⟩ := hkind
  constructor
  · refine .inr (.inr ⟨calm_pad hpad hword fun hp => absurd hp hpoint, ?_⟩)
    rw [dropWhile_pad hpad hspace]
    refine Option.eq_none_iff_forall_ne_some.2 fun r hr => ?_
    exact hpoint (List.cons.inj (dropPrefix?_eq_some.1 hr)).1
  · intro r hr
    rw [behind_of_not_endsLine hline, dropWhile_pad hpad hspace] at hr
    exact absurd (List.cons.inj hr).1 hcolon

/-- An object with spaces and what ends it is an expression. -/
lemma expressionAt_pad {o pad : List Char} {mark : Char} (h : Spells True o v)
    (hline : ¬ EndsLine o)
    (hpad : Spaces pad) (hmark : mark = ';' ∨ mark = '#' ∨ endsLine mark = true) (q : List Char) :
    expressionAt (o ++ (pad ++ mark :: q)) =
      (terminated? (mark :: q)).map fun rest => (v, rest) := by
  have hne : pad ++ mark :: q ≠ [] := by simp
  rw [← eq_true hne] at h
  have hread := objectAt_append h (.of_pad hline hpad hmark q)
  have hspace : isSpace mark = false := by
    rcases hmark with rfl | rfl | hmark
    · rfl
    · rfl
    · simp only [endsLine, decide_eq_true_eq] at hmark
      rcases hmark with rfl | rfl <;> rfl
  rw [behind_of_not_endsLine hline] at hread
  rw [expressionAt_of_object hread hline, dropWhile_pad hpad hspace]

/-- Where nothing is left in the end, a blank, a comment or an expression comes first. -/
lemma exists_piece (hne : cs ≠ []) (h : (statementsAt cs).2 = []) :
    (∃ c more, cs = c :: more ∧ isBlank c = true) ∨ (∃ v rest, commentAt cs = some (v, rest)) ∨
      ∃ v rest, expressionAt cs = some (v, rest) := by
  cases hstep : statementStep cs with
  | none =>
    rw [statementsAt_of_none hstep] at h
    exact absurd h hne
  | some result =>
    rcases Option.or_eq_some_iff.1 hstep with hstatement | ⟨-, hblank⟩
    · right
      cases hcomment : commentAt cs with
      | some result => exact .inl ⟨_, _, rfl⟩
      | none =>
        simp only [statementAt, hcomment, bind, Option.bind_eq_some_iff] at hstatement
        obtain ⟨⟨v, rest⟩, hexpression, -⟩ := hstatement
        exact .inr ⟨v, rest, hexpression⟩
    · left
      obtain ⟨rest, hrest, -⟩ := Option.map_eq_some_iff.1 hblank
      obtain ⟨a, htaken, ha, rfl⟩ := dropBlank?_eq_some hrest
      obtain ⟨c, a, rfl⟩ := List.exists_cons_of_ne_nil htaken
      exact ⟨c, a ++ rest, rfl, ha c (by simp)⟩

/-! ## Whole programs -/

/-- A text is accepted as a program just if no characters are left behind its statements, if the
limit is not exceeded. -/
lemma parse_program_iff {settings : Settings} {text : String}
    (h : ¬ TooDeep (grammar.parse settings (.named .program) text)) {result : Value Node} :
    grammar.parse settings (.named .program) text = .ok result ↔
      ∃ nodes, result = .object (.program nodes) ∧ statementsAt text.toList = (nodes, []) := by
  have hread : ∀ cs, Phrase.program.read cs = whole (some (programAt cs)) := fun _ => rfl
  rw [parse_named_iff hread h]
  simp only [programAt, Option.some.injEq, Prod.mk.injEq]
  constructor
  · rintro ⟨_, rfl, rfl, hrest⟩
    exact ⟨_, rfl, Prod.ext rfl hrest⟩
  · rintro ⟨nodes, rfl, hstatements⟩
    exact ⟨_, rfl, by rw [hstatements], by rw [hstatements]⟩

/-- Nothing is left behind the statements of an accepted program, whatever the limit. -/
lemma statementsAt_of_parse {settings : Settings} {text : String} {result : Value Node}
    (h : grammar.parse settings (.named .program) text = .ok result) :
    ∃ nodes, result = .object (.program nodes) ∧ statementsAt text.toList = (nodes, []) :=
  (parse_program_iff (not_tooDeep_of_ok h)).1 h

end Packrat.Program
