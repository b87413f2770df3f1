import Packrat.Proofs.Program.Object
set_option autoImplicit false
set_option relaxedAutoImplicit false

/-!
# Reading statements

A program is a row of comments and objects with line breaks, spaces and semicolons between them. A
comment behind an object is a statement of its own, though both are read at once.

## Main definitions

* `Packrat.Program.expressionAt`, `Packrat.Program.statementAt`, `Packrat.Program.programAt` — read
  what programs are made of.

## Main results

* `Packrat.Program.commentAt_eq_some` — what is read of a comment.
* `Packrat.Program.advances_statementStep` — every step takes at least one character.
-/

namespace Packrat.Program

/-- The characters behind what ends an expression; the comment that may end it is left. -/
def terminated? (cs : List Char) : Option (List Char) :=
  (dropChar? (· == ';') cs).or ((dropBreak? cs).or
    (if cs = [] ∨ cs.head? = some '#' then some cs else none))

/-- Reads an object and what ends it, which is nothing behind a line break. -/
def expressionAt : Reader := fun cs => do
  let (node, rest) ← objectAt cs
  if EndsLine (front cs rest) then some (node, rest)
  else
    let rest ← terminated? (rest.dropWhile isSpace)
    some (node, rest)

/-- Reads a comment, or an expression and the comment behind it if there is one. -/
def statementAt (cs : List Char) : Option (List Node × List Char) :=
  match commentAt cs with
  | some (comment, rest) => some ([comment], rest)
  | none => do
    let (node, rest) ← expressionAt cs
    match commentAt (rest.dropWhile isSpace) with
    | some (comment, rest) => some ([node, comment], rest)
    | none => some ([node], rest.dropWhile isSpace)

/-- A step over a statement, or over a character between statements. -/
def statementStep (cs : List Char) : Option (List Node × List Char) :=
  (statementAt cs).or ((dropBlank? cs).map fun rest => ([], rest))

/-- The statements ahead, and what is left where there is no further one. -/
def statementsAt (cs : List Char) : List Node × List Char :=
  ((many statementStep cs).1.flatten, (many statementStep cs).2)

/-- Reads a program: as many statements as there are. -/
def programAt (cs : List Char) : Node × List Char :=
  (.program (statementsAt cs).1, (statementsAt cs).2)

/-! ## Every step takes at least one character -/

/-- A comment is read with the line break that ends it. -/
lemma commentAt_append {text b : List Char} (htext : WithinLine text) (hb : Break b)
    (r : List Char) :
    commentAt ('#' :: (text ++ (b ++ r))) = some (.comment (String.ofList text), behind b r) := by
  have hall : ∀ c ∈ text, (!endsLine c) = true := fun c hc => by simp [htext c hc]
  have hend : ∀ c ∈ (b ++ r).head?, (!endsLine c) = false := by
    intro c hc
    obtain ⟨d, hd, hline⟩ := hb.head r
    rw [Option.some.inj (hc.symm.trans hd), hline]
    rfl
  obtain ⟨htake, hdrop⟩ := takeWhile_dropWhile_of_split hall hend
  have hmark : ∀ cs, dropChar? (· == '#') ('#' :: cs) = some cs := fun _ => rfl
  simp only [commentAt, hmark, htake, hdrop, dropBreak?_append hb, bind, Option.bind_some,
    Option.getD_some]

/-- A comment at the end of the text needs no line break. -/
lemma commentAt_last {text : List Char} (htext : WithinLine text) :
    commentAt ('#' :: text) = some (.comment (String.ofList text), []) := by
  have hall : ∀ c ∈ text, (!endsLine c) = true := fun c hc => by simp [htext c hc]
  have hmark : dropChar? (· == '#') ('#' :: text) = some text := rfl
  simp only [commentAt, hmark, List.dropWhile_eq_nil_iff.2 hall, List.takeWhile_eq_self_iff.2 hall,
    bind, Option.bind_some]
  rfl

/-- A comment goes up to the end of its line. -/
lemma commentAt_eq_some {cs rest : List Char} {v : Node} :
    commentAt cs = some (v, rest) ↔ ∃ text, WithinLine text ∧ v = .comment (String.ofList text) ∧
      ((cs = '#' :: text ∧ rest = []) ∨
        ∃ b, Break b ∧ cs = '#' :: (text ++ (b ++ rest)) ∧ behind b rest = rest) := by
  constructor
  · intro h
    simp only [commentAt, bind, Option.bind_eq_some_iff, dropChar?_eq_some, beq_iff_eq,
      Option.some.injEq, Prod.mk.injEq] at h
    obtain ⟨cs, ⟨_, rfl, rfl⟩, rfl, hrest⟩ := h
    obtain ⟨text, r, rfl, htext, hr, hdrop, htake⟩ := exists_line cs
    rw [htake]
    rw [hdrop] at hrest
    refine ⟨text, htext, rfl, ?_⟩
    cases hbreak : dropBreak? r with
    | none =>
      have hnil : r = [] := by
        cases r with
        | nil => rfl
        | cons c r => exact absurd (hr c rfl) (by simp [dropBreak?_eq_none.1 hbreak c rfl])
      rw [hbreak] at hrest
      exact .inl ⟨by simp [hnil], by rw [← hrest, hnil]; rfl⟩
    | some left =>
      rw [hbreak] at hrest
      obtain rfl : left = rest := hrest
      obtain ⟨b, hb, rfl, hleft⟩ := dropBreak?_eq_some.1 hbreak
      exact .inr ⟨b, hb, rfl, hleft⟩
  · rintro ⟨text, htext, rfl, ⟨rfl, rfl⟩ | ⟨b, hb, rfl, hrest⟩⟩
    · exact commentAt_last htext
    · rw [commentAt_append htext hb, hrest]

/-- A comment takes a character. -/
lemma advances_commentAt : Advances commentAt := by
  intro cs v rest h
  obtain ⟨text, -, -, ⟨rfl, rfl⟩ | ⟨b, -, rfl, -⟩⟩ := commentAt_eq_some.1 h
  · exact ⟨'#' :: text, by simp, by simp⟩
  · exact ⟨'#' :: (text ++ b), by simp, by simp⟩

/-- Behind a line break is the end of what was ahead. -/
lemma dropBreak?_suffix {cs rest : List Char} (h : dropBreak? cs = some rest) : rest <:+ cs := by
  obtain ⟨b, -, rfl, -⟩ := dropBreak?_eq_some.1 h
  exact List.suffix_append b rest

/-- A line break ends an expression. -/
lemma terminated?_break {b : List Char} (hb : Break b) (r : List Char) :
    terminated? (b ++ r) = some (behind b r) := by
  have hmark : dropChar? (· == ';') (b ++ r) = none := by
    cases hb <;> rfl
  simp only [terminated?, hmark, dropBreak?_append hb, Option.none_or, Option.some_or]

/-- Behind the end of an expression is the end of what was ahead. -/
lemma terminated?_suffix {cs rest : List Char} (h : terminated? cs = some rest) : rest <:+ cs := by
  rcases Option.or_eq_some_iff.1 h with h | ⟨-, h⟩
  · exact dropChar?_suffix h
  · rcases Option.or_eq_some_iff.1 h with h | ⟨-, h⟩
    · exact dropBreak?_suffix h
    · split at h
      · cases h
        exact List.suffix_rfl
      · cases h

/-- An expression is an object, and what is left behind it is left behind the object. -/
lemma objectAt_of_expressionAt {cs rest : List Char} {v : Node}
    (h : expressionAt cs = some (v, rest)) :
    ∃ left, objectAt cs = some (v, left) ∧ rest <:+ left := by
  simp only [expressionAt, bind, Option.bind_eq_some_iff] at h
  obtain ⟨⟨node, left⟩, hobject, hend⟩ := h
  split at hend
  · cases hend
    exact ⟨left, hobject, List.suffix_rfl⟩
  · obtain ⟨more, hmore, hend⟩ := Option.bind_eq_some_iff.1 hend
    cases hend
    exact ⟨left, hobject, (terminated?_suffix hmore).trans (List.dropWhile_suffix isSpace)⟩

/-- An expression takes a character. -/
lemma advances_expressionAt : Advances expressionAt := by
  intro cs v rest h
  obtain ⟨left, hobject, more, rfl⟩ := objectAt_of_expressionAt h
  obtain ⟨a, hne, rfl⟩ := advances_objectAt cs v _ hobject
  exact ⟨a ++ more, by simp [hne], by simp⟩

/-- A statement takes a character. -/
lemma advances_statementAt : Advances statementAt := by
  intro cs nodes rest h
  rw [statementAt] at h
  split at h
  · rename_i hcomment
    cases h
    exact advances_commentAt _ _ _ hcomment
  · simp only [bind, Option.bind_eq_some_iff] at h
    obtain ⟨⟨node, left⟩, hexpression, hend⟩ := h
    obtain ⟨a, hne, rfl⟩ := advances_expressionAt cs node left hexpression
    obtain ⟨pad, hpad⟩ := exists_taken_dropWhile isSpace left
    simp only at hend
    split at hend
    · rename_i hcomment
      cases hend
      obtain ⟨b, -, hb⟩ := advances_commentAt _ _ _ hcomment
      exact ⟨a ++ pad ++ b, by simp [hne],
        by rw [List.append_assoc, ← hb, List.append_assoc, ← hpad]⟩
    · cases hend
      exact ⟨a ++ pad, by simp [hne], by rw [List.append_assoc, ← hpad]⟩

/-- A step over a statement takes a character. -/
lemma advances_statementStep : Advances statementStep := by
  refine advances_statementAt.or fun cs nodes rest h => ?_
  simp only [Option.map_eq_some_iff, Prod.mk.injEq] at h
  obtain ⟨_, h, -, rfl⟩ := h
  obtain ⟨a, hne, -, hcs⟩ := dropBlank?_eq_some h
  exact ⟨a, hne, hcs⟩

end Packrat.Program
