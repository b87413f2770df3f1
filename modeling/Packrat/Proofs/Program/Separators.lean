import Packrat.Proofs.Program.Steps
set_option autoImplicit false
set_option relaxedAutoImplicit false

/-!
# Separators between statements

Objects with semicolons, line breaks or comments between them are a program of these objects. An
object that is accepted on its own is read up to its end in front of a separator: no separator can
be a part of it, unless it ends with a document, whose label may stand at the end of the text only
on its own.

## Main definitions

* `Packrat.Program.EndsInDocument` — the last piece of an object is a document.
* `Packrat.Program.Separator` — what may stand behind an object, and its comment.
* `Packrat.Program.Separated` — a row of objects, each with a separator behind it.

## Main results

* `Packrat.Program.Spells.of_not_document` — an object without a document at its end is spelled so
  wherever it stands.
* `Packrat.Program.parse_separated` — objects with separators are a program.
-/

namespace Packrat.Program

/-! ## Objects without a document at the end -/

/-- The last piece of the text is a document: the text is one, or its last value ends in one. -/
inductive EndsInDocument : List Char → Prop
  | document {cs : List Char} {v : Node} : Accepts .hereDoc cs v → EndsInDocument cs
  | value {a pad pad' b : List Char} {k : Node} : Accepts .simpleObject a k → Spaces pad →
      Spaces pad' → EndsInDocument b → EndsInDocument (a ++ (pad ++ ':' :: (pad' ++ b)))

/-- There is a mark of a document in a text that ends in one. -/
lemma EndsInDocument.mem {cs : List Char} (h : EndsInDocument cs) : '<' ∈ cs := by
  induction h with
  | document h =>
    obtain ⟨label, b, body, -, -, -, rfl, -⟩ := hereDocAt_eq_some.1 (accepts_hereDoc.1 h)
    simp
  | value _ _ _ _ ih => simp [ih]

/-- An object that ends its line ends in a document. -/
lemma Spells.endsInDocument {closed : Prop} {o : List Char} {v : Node} (h : Spells closed o v)
    (hline : EndsLine o) : EndsInDocument o := by
  induction h, hline using Spells.induction_endsLine with
  | document hread _ _ => exact .document (accepts_hereDoc.2 hread)
  | value ha _ hpad hpad' _ _ ih => exact .value ha hpad hpad' ih

/-- An object whose last piece is no document is spelled in the same way wherever it stands, and it
does not end its line. -/
lemma Spells.of_not_document {closed : Prop} {o : List Char} {v : Node} (h : Spells closed o v)
    (hnot : ¬ EndsInDocument o) : Spells True o v ∧ ¬ EndsLine o := by
  refine ⟨?_, mt h.endsInDocument hnot⟩
  induction h using Spells.induction_value with
  | simple ha _ => exact .simple ha fun _ hdocument => absurd (.document hdocument) hnot
  | keyValue ha hclosed hpad hpad' _ ih =>
    exact .keyValue ha hclosed hpad hpad' (ih (mt (.value ha hpad hpad') hnot))
  | range ha hpad hx hpad' hb => exact .range ha hpad hx hpad' hb
  | hash hpairs hall => exact .hash hpairs hall
  | list hitems => exact .list hitems

/-! ## Rows of objects and separators -/

/-- What may stand behind an object, and the comment in it if there is one: spaces, then a
semicolon, a line break or a comment with its line break, then blanks. -/
inductive Separator : List Char → List Node → Prop
  | semicolon {pad s : List Char} : Spaces pad → Blanks s → Separator (pad ++ ';' :: s) []
  | lineBreak {pad b s : List Char} : Spaces pad → Break b → Blanks s →
      Separator (pad ++ (b ++ s)) []
  | comment {pad text b s : List Char} : Spaces pad → WithinLine text → Break b → Blanks s →
      Separator (pad ++ '#' :: (text ++ (b ++ s))) [.comment (String.ofList text)]

/-- A row of objects that are accepted on their own, under whatever settings, each with a separator
behind it; and the statements that it consists of. -/
inductive Separated : List Char → List Node → Prop
  | nil : Separated [] []
  | cons {o s cs : List Char} {v : Node} {comments nodes : List Node} {settings : Settings} :
      grammar.parse settings (.named .object) (String.ofList o) = .ok (.object v) →
      ¬ EndsInDocument o → Separator s comments → Separated cs nodes →
      Separated (o ++ (s ++ cs)) (v :: (comments ++ nodes))

/-- An object with a separator behind it comes to be the first statement, and the comment in the
separator the second. -/
lemma statementsAt_separator {o s : List Char} {v : Node} {comments : List Node}
    (h : Spells True o v) (hline : ¬ EndsLine o) (hs : Separator s comments) (cs : List Char) :
    statementsAt (o ++ (s ++ cs)) =
      (v :: (comments ++ (statementsAt cs).1), (statementsAt cs).2) := by
  cases hs with
  | @semicolon pad s hpad hblanks =>
    have hread := expressionAt_pad h hline hpad (.inl rfl) (s ++ cs)
    have hend : terminated? (';' :: (s ++ cs)) = some (s ++ cs) := rfl
    rw [hend, Option.map_some] at hread
    rw [List.append_assoc, List.cons_append, statementsAt_expression hread,
      statementsAt_blanks hblanks]
    rfl
  | @lineBreak pad b s hpad hb hblanks =>
    obtain ⟨c, more, hcons, hc⟩ := hb.exists_cons
    have hread := expressionAt_pad h hline hpad (.inr (.inr hc)) (more ++ (s ++ cs))
    rw [← List.cons_append, ← hcons, terminated?_break hb, Option.map_some] at hread
    rw [List.append_assoc, List.append_assoc, statementsAt_expression hread, statementsAt_behind,
      statementsAt_blanks hblanks]
    rfl
  | @comment pad text b s hpad htext hb hblanks =>
    have hread := expressionAt_pad h hline hpad (.inr (.inl rfl)) (text ++ (b ++ (s ++ cs)))
    have hend : terminated? ('#' :: (text ++ (b ++ (s ++ cs)))) =
        some ('#' :: (text ++ (b ++ (s ++ cs)))) := rfl
    rw [hend, Option.map_some] at hread
    simp only [List.append_assoc, List.cons_append]
    rw [statementsAt_expression hread, statementsAt_comment (commentAt_append htext hb (s ++ cs)),
      statementsAt_behind, statementsAt_blanks hblanks]
    rfl

/-- The statements of a row of objects with separators are these objects and the comments between
them. -/
lemma statementsAt_separated {cs : List Char} {nodes : List Node} (h : Separated cs nodes) :
    statementsAt cs = (nodes, []) := by
  induction h with
  | nil => exact statementsAt_nil
  | cons ha hnot hs _ ih =>
    have hobject := read_of_parse ha fun _ => rfl
    obtain ⟨hspells, hline⟩ := (spells_iff.2 hobject).of_not_document hnot
    rw [statementsAt_separator hspells hline hs, ih]

/-- Objects that are accepted on their own, with a separator behind each, are a program of just
these objects and the comments in the separators, if the limit is not exceeded. -/
theorem parse_separated {settings : Settings} {text : String} {nodes : List Node}
    (h : Separated text.toList nodes)
    (hdeep : ¬ TooDeep (grammar.parse settings (.named .program) text)) :
    grammar.parse settings (.named .program) text = .ok (.object (.program nodes)) :=
  (parse_program_iff hdeep).2 ⟨nodes, rfl, statementsAt_separated h⟩

/-- Two objects on a line, the first of which could go on behind its comment, and a third one. -/
theorem parse_separated_lines :
    Separated "1 # a\r\n.5;[:b]\r".toList
        [.integer "1" none, .comment " a", .decimal ".5" none, .list [.string "b"]] ∧
      ¬ TooDeep (grammar.parse {} (.named .program) "1 # a\r\n.5;[:b]\r") ∧
      grammar.parse {} (.named .program) "1 # a\r\n.5;[:b]\r" = .ok (.object (.program
        [.integer "1" none, .comment " a", .decimal ".5" none, .list [.string "b"]])) := by
  have hdocument : ∀ {cs : List Char}, '<' ∉ cs → ¬ EndsInDocument cs := fun h hends => h hends.mem
  have hnumber : Accepts .object ['1'] (.integer "1" none) := by decide +kernel
  have hpoint : Accepts .object ['.', '5'] (.decimal ".5" none) := by decide +kernel
  have hlist : Accepts .object ['[', ':', 'b', ']'] (.list [.string "b"]) := by decide +kernel
  have hone : Separator ([' '] ++ '#' :: ([' ', 'a'] ++ (['\r', '\n'] ++ []))) [.comment " a"] :=
    .comment (by decide) (by decide) .crlf (by decide)
  have htwo : Separator ([] ++ ';' :: []) [] := .semicolon (by decide) (by decide)
  have hthree : Separator ([] ++ (['\r'] ++ [])) [] := .lineBreak (by decide) .cr (by decide)
  have hrow : Separated (['1'] ++ ([' '] ++ '#' :: ([' ', 'a'] ++ (['\r', '\n'] ++ [])) ++
      (['.', '5'] ++ ([] ++ ';' :: [] ++ (['[', ':', 'b', ']'] ++ ([] ++ (['\r'] ++ []) ++ []))))))
      [.integer "1" none, .comment " a", .decimal ".5" none, .list [.string "b"]] :=
    .cons hnumber (hdocument (by decide)) hone
      (.cons hpoint (hdocument (by decide)) htwo
        (.cons hlist (hdocument (by decide)) hthree .nil))
  have h : ¬ TooDeep (grammar.parse {} (.named .program) "1 # a\r\n.5;[:b]\r") :=
    not_tooDeep_of_isOk (by decide +kernel)
  exact ⟨hrow, h, parse_separated hrow h⟩

end Packrat.Program
