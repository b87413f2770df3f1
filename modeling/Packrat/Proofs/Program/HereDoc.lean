import Packrat.Proofs.Program.Token
set_option autoImplicit false
set_option relaxedAutoImplicit false

/-!
# Where documents end

A document starts with a label behind two marks and ends with the first line that is the label
again. It takes the line break behind that line, or ends with the text.

## Main definitions

* `Packrat.Program.Break` — the line breaks.
* `Packrat.Program.LabelText` — the labels.

## Main results

* `Packrat.Program.lineStep_eq_some` — a line of a document is one that is not its label.
* `Packrat.Program.hereDocAt_eq_some` — what is read of a document.
* `Packrat.Program.cuts_hereDocAt` — documents are read in front of others as on their own.
-/

namespace Packrat.Program

/-! ## Line breaks -/

/-- The line breaks. -/
inductive Break : List Char → Prop
  | crlf : Break ['\r', '\n']
  | lf : Break ['\n']
  | cr : Break ['\r']

/-- A line break has a character. -/
lemma Break.ne_nil {b : List Char} (h : Break b) : b ≠ [] := by
  cases h <;> simp

/-- A line break ends a line. -/
lemma Break.endsLine {b : List Char} (h : Break b) : EndsLine b := by
  cases h <;> decide

/-- A line break is the first character or the first two. -/
lemma Break.head {b : List Char} (h : Break b) (r : List Char) :
    ∃ c ∈ (b ++ r).head?, Packrat.endsLine c = true := by
  cases h
  · exact ⟨'\r', rfl, by decide⟩
  · exact ⟨'\n', rfl, by decide⟩
  · exact ⟨'\r', rfl, by decide⟩

/-- A line break starts with a character of one. -/
lemma Break.exists_cons {b : List Char} (h : Break b) :
    ∃ c more, b = c :: more ∧ Packrat.endsLine c = true := by
  obtain ⟨c, hc, hline⟩ := h.head []
  rw [List.append_nil] at hc
  obtain ⟨more, rfl⟩ := List.head?_eq_some_iff.1 hc
  exact ⟨c, more, rfl, hline⟩

/-- A carriage return goes with a line feed that follows. -/
lemma dropBreak?_append {b : List Char} (h : Break b) (r : List Char) :
    dropBreak? (b ++ r) = some (behind b r) := by
  cases h with
  | crlf => rfl
  | lf => rfl
  | cr =>
    match r with
    | [] => rfl
    | c :: r =>
      by_cases hc : c = '\n'
      · subst hc
        rfl
      · simp [dropBreak?, behind, hc]

/-- A line break is taken if there is one, and none of its line feed is left behind. -/
lemma dropBreak?_eq_some {cs rest : List Char} :
    dropBreak? cs = some rest ↔ ∃ b, Break b ∧ cs = b ++ rest ∧ behind b rest = rest := by
  constructor
  · fun_cases dropBreak? cs with
    | case1 cs =>
      rintro ⟨⟩
      exact ⟨_, .crlf, rfl, rfl⟩
    | case2 cs =>
      rintro ⟨⟩
      exact ⟨_, .lf, rfl, rfl⟩
    | case3 cs hnot =>
      rintro ⟨⟩
      refine ⟨_, .cr, rfl, if_neg ?_⟩
      rintro ⟨-, hhead⟩
      obtain ⟨r, rfl⟩ := List.head?_eq_some_iff.1 hhead
      exact hnot r rfl
    | case4 => nofun
  · rintro ⟨b, hb, rfl, hrest⟩
    rw [dropBreak?_append hb, hrest]

/-- No line break is taken where the text does not start with a character of one. -/
lemma dropBreak?_eq_none {cs : List Char} :
    dropBreak? cs = none ↔ ∀ c ∈ cs.head?, endsLine c = false := by
  constructor
  · fun_cases dropBreak? cs with
    | case1 cs | case2 cs | case3 cs => nofun
    | case4 _ _ hn hr =>
      rintro - c hc
      by_contra hline
      obtain ⟨cs, rfl⟩ := List.head?_eq_some_iff.1 hc
      simp only [endsLine, decide_eq_false_iff_not, not_not] at hline
      rcases hline with rfl | rfl
      · exact hn cs rfl
      · exact hr cs rfl
  · intro h
    refine Option.eq_none_iff_forall_ne_some.2 fun rest hdrop => ?_
    obtain ⟨b, hb, rfl, -⟩ := dropBreak?_eq_some.1 hdrop
    obtain ⟨c, hc, hline⟩ := hb.head rest
    exact absurd hline (by simp [h c hc])

/-- More characters behind those that follow change nothing about what a text takes in. -/
lemma behind_append {a c : List Char} (hc : c ≠ []) (r : List Char) :
    behind a (c ++ r) = c ++ r ↔ behind a c = c := by
  obtain ⟨d, c, rfl⟩ := List.exists_cons_of_ne_nil hc
  simp [behind]

/-- What is taken in depends on how the text ends. -/
lemma behind_append_left {b : List Char} (hb : b ≠ []) (a r : List Char) :
    behind (a ++ b) r = behind b r := by
  rw [behind, behind, List.getLast?_append, List.getLast?_eq_some_getLast hb]
  rfl

/-- A text that takes in a line feed ends with a line break as before. -/
lemma exists_behind (a r : List Char) :
    ∃ b, r = b ++ behind a r ∧ (EndsLine (a ++ b) ↔ EndsLine a) := by
  rw [behind]
  split
  · rename_i h
    obtain ⟨r, rfl⟩ := List.head?_eq_some_iff.1 h.2
    have hline : EndsLine a := by
      rw [EndsLine, h.1]
      decide
    exact ⟨['\n'], rfl, by simp only [hline, endsLine_append (List.cons_ne_nil _ _)]; decide⟩
  · exact ⟨[], rfl, by rw [List.append_nil]⟩

/-! ## Runs of line breaks and blanks -/

/-- A step over a line break. -/
def breakStep (cs : List Char) : Option (Unit × List Char) :=
  (dropBreak? cs).map fun rest => ((), rest)

/-- A step over a space, a tab or a line break. -/
def blankStep (cs : List Char) : Option (Unit × List Char) :=
  (dropBlank? cs).map fun rest => ((), rest)

/-- All characters of a line break are characters of one. -/
lemma Break.all_endsLine {b : List Char} (h : Break b) :
    ∀ c ∈ b, Packrat.endsLine c = true := by
  cases h <;> simp [Packrat.endsLine]

/-- A step over a line break takes one. -/
lemma breakStep_eq_some {cs rest : List Char} {u : Unit} :
    breakStep cs = some (u, rest) ↔ dropBreak? cs = some rest := by
  simp [breakStep]

/-- A step over a line break takes a character. -/
lemma advances_breakStep : Advances breakStep := by
  intro cs _ rest h
  obtain ⟨b, hb, rfl, -⟩ := dropBreak?_eq_some.1 (breakStep_eq_some.1 h)
  exact ⟨b, hb.ne_nil, rfl⟩

/-- Steps over line breaks take all characters of them. -/
lemma many_breakStep (cs : List Char) : (many breakStep cs).2 = cs.dropWhile endsLine := by
  refine many_eq_dropWhile advances_breakStep (fun cs => ?_) (fun a rest _ h => ?_) cs
  · rw [breakStep, Option.map_eq_none_iff, dropBreak?_eq_none]
  · obtain ⟨b, hb, he, -⟩ := dropBreak?_eq_some.1 (breakStep_eq_some.1 h)
    rw [List.append_cancel_right he]
    exact hb.all_endsLine

/-- A blank is a space, a tab or a line break, and all its characters are blank. -/
lemma dropBlank?_eq_some {cs rest : List Char} (h : dropBlank? cs = some rest) :
    ∃ a, a ≠ [] ∧ (∀ c ∈ a, isBlank c = true) ∧ cs = a ++ rest := by
  rcases Option.or_eq_some_iff.1 h with h | ⟨-, h⟩
  · obtain ⟨c, hc, rfl⟩ := dropChar?_eq_some.1 h
    exact ⟨[c], by simp, by simp [isBlank, hc], rfl⟩
  · obtain ⟨b, hb, rfl, -⟩ := dropBreak?_eq_some.1 h
    exact ⟨b, hb.ne_nil, fun c hc => by simp [isBlank, hb.all_endsLine c hc], rfl⟩

/-- No blank is taken where the text does not start with a blank character. -/
lemma dropBlank?_eq_none {cs : List Char} :
    dropBlank? cs = none ↔ ∀ c ∈ cs.head?, isBlank c = false := by
  rw [dropBlank?, Option.or_eq_none_iff, dropBreak?_eq_none]
  cases cs with
  | nil => simp [dropChar?]
  | cons c cs => simp [dropChar?, isBlank]

/-- A step over a blank takes a character. -/
lemma advances_blankStep : Advances blankStep := by
  intro cs _ rest h
  simp only [blankStep, Option.map_eq_some_iff, Prod.mk.injEq, true_and, exists_eq_right] at h
  obtain ⟨a, hne, -, rfl⟩ := dropBlank?_eq_some h
  exact ⟨a, hne, rfl⟩

/-- Steps over blanks take all blank characters. -/
lemma many_blankStep (cs : List Char) : (many blankStep cs).2 = cs.dropWhile isBlank := by
  refine many_eq_dropWhile advances_blankStep (fun cs => ?_) (fun a rest _ h => ?_) cs
  · rw [blankStep, Option.map_eq_none_iff, dropBlank?_eq_none]
  · simp only [blankStep, Option.map_eq_some_iff, Prod.mk.injEq, true_and, exists_eq_right] at h
    obtain ⟨b, -, hb, he⟩ := dropBlank?_eq_some h
    rw [List.append_cancel_right he]
    exact hb

/-! ## Lines -/

/-- The characters lie within a line. -/
def WithinLine (cs : List Char) : Prop := ∀ c ∈ cs, endsLine c = false

/-- Whether characters lie within a line is decided one by one. -/
instance : DecidablePred WithinLine := fun cs => List.decidableBAll (endsLine · = false) cs

/-- What lies within a line does not end one. -/
lemma WithinLine.not_endsLine {cs : List Char} (h : WithinLine cs) : ¬ EndsLine cs := by
  rcases List.eq_nil_or_concat' cs with rfl | ⟨initial, c, rfl⟩
  · decide
  · exact not_endsLine_concat (h c (by simp))

/-- Two texts within a line are one text within a line. -/
lemma withinLine_append {a b : List Char} (ha : WithinLine a) (hb : WithinLine b) :
    WithinLine (a ++ b) := by
  intro c hc
  rcases List.mem_append.1 hc with hc | hc
  · exact ha c hc
  · exact hb c hc

/-- Characters of words lie within a line. -/
lemma withinLine_of_wordSet {a : List Char} (h : ∀ c ∈ a, wordSet.contains c = true) :
    WithinLine a := fun c hc => not_endsLine_of_wordSet (h c hc)

/-- A label is made of capital letters and underscores. -/
structure LabelText (label : List Char) : Prop where
  ne_nil : label ≠ []
  chars : ∀ c ∈ label, labelSet.contains c = true

/-- A label lies within a line. -/
lemma LabelText.withinLine {label : List Char} (h : LabelText label) : WithinLine label := by
  intro c hc
  by_contra hline
  simp only [endsLine, decide_eq_false_iff_not, not_not] at hline
  have hset := h.chars c hc
  rcases hline with rfl | rfl <;> exact absurd hset (by decide)

/-- A text has a first line, with a line break behind it or the end of the text. -/
lemma exists_line (cs : List Char) :
    ∃ line r, cs = line ++ r ∧ WithinLine line ∧ (∀ c ∈ r.head?, endsLine c = true) ∧
      cs.dropWhile (!endsLine ·) = r ∧ cs.takeWhile (!endsLine ·) = line := by
  obtain ⟨line, r, rfl, hline, hr⟩ := exists_split (!endsLine ·) cs
  obtain ⟨htake, hdrop⟩ := takeWhile_dropWhile_of_split hline hr
  exact ⟨line, r, rfl, fun c hc => by simpa using hline c hc, fun c hc => by simpa using hr c hc,
    hdrop, htake⟩

/-- Behind the characters of a line is what ends it. -/
lemma dropWhile_line {line r : List Char} (h : WithinLine line)
    (hr : ∀ c ∈ r.head?, endsLine c = true) : (line ++ r).dropWhile (!endsLine ·) = r :=
  (takeWhile_dropWhile_of_split (fun c hc => by simp [h c hc]) fun c hc => by simp [hr c hc]).2

/-- Two ways to cut off the first line are the same. -/
lemma line_unique {line other r r' : List Char} (h : WithinLine line) (h' : WithinLine other)
    (hr : ∀ c ∈ r.head?, endsLine c = true) (hr' : ∀ c ∈ r'.head?, endsLine c = true)
    (he : line ++ r = other ++ r') : line = other ∧ r = r' := by
  have hdrop := dropWhile_line h hr
  rw [he, dropWhile_line h' hr'] at hdrop
  subst hdrop
  exact ⟨List.append_cancel_right he, rfl⟩

section

variable {label : List Char}

/-- A label ends a document where it is a whole line, with the end of the text or a line break
behind it. -/
lemma endLabel?_eq_some {cs rest : List Char} :
    endLabel? label cs = some rest ↔ (cs = label ∧ rest = []) ∨
      ∃ b, Break b ∧ cs = label ++ (b ++ rest) ∧ behind b rest = rest := by
  simp only [endLabel?, bind, Option.bind_eq_some_iff, dropPrefix?_eq_some]
  constructor
  · rintro ⟨r, rfl, h⟩
    split at h
    · rename_i hr
      exact .inl ⟨by simp [hr], (Option.some.inj h).symm⟩
    · obtain ⟨b, hb, rfl, hrest⟩ := dropBreak?_eq_some.1 h
      exact .inr ⟨b, hb, rfl, hrest⟩
  · rintro (⟨rfl, rfl⟩ | ⟨b, hb, rfl, hrest⟩)
    · exact ⟨[], (List.append_nil _).symm, rfl⟩
    · refine ⟨b ++ rest, rfl, ?_⟩
      rw [if_neg (by simp [hb.ne_nil]), dropBreak?_append hb, hrest]

/-- A label with a line break behind it ends a document. -/
lemma endLabel?_append {b : List Char} (hb : Break b) (r : List Char) :
    endLabel? label (label ++ (b ++ r)) = some (behind b r) := by
  have hprefix : (label ++ (b ++ r)).dropPrefix? label = some (b ++ r) := dropPrefix?_eq_some.2 rfl
  simp only [endLabel?, hprefix, bind, Option.bind_some, List.append_eq_nil_iff, hb.ne_nil,
    false_and, if_false, dropBreak?_append hb]

variable (hl : LabelText label)

include hl

/-- The label ends a document just where it is a whole line. -/
lemma endLabel?_eq_none {line r : List Char} (hline : WithinLine line)
    (hr : ∀ c ∈ r.head?, endsLine c = true) (hne : line ≠ label) :
    endLabel? label (line ++ r) = none := by
  by_contra hsome
  obtain ⟨rest, hrest⟩ := Option.ne_none_iff_exists'.1 hsome
  rcases endLabel?_eq_some.1 hrest with ⟨he, -⟩ | ⟨b, hb, he, -⟩
  · rw [← List.append_nil label] at he
    exact hne (line_unique hline hl.withinLine hr (by simp) he).1
  · refine hne (line_unique hline hl.withinLine hr (fun c hc => ?_) he).1
    obtain ⟨d, hd, hline⟩ := hb.head rest
    rwa [Option.some.inj (hc.symm.trans hd)]

/-- A line of a document is one that is not its label. -/
lemma lineStep_append {line b : List Char} (hline : WithinLine line) (hb : Break b)
    (hne : line ≠ label) (r : List Char) :
    lineStep label (line ++ (b ++ r)) = some ((), behind b r) := by
  have hhead : ∀ c ∈ (b ++ r).head?, endsLine c = true := by
    intro c hc
    obtain ⟨d, hd, hline⟩ := hb.head r
    rwa [Option.some.inj (hc.symm.trans hd)]
  rw [lineStep, endLabel?_eq_none hl hline hhead hne, dropWhile_line hline hhead]
  simp only [dropBreak?_append hb, Option.map_some]

/-- A step over a line of a document takes one that is not the label, and its line break. -/
lemma lineStep_eq_some {cs rest : List Char} :
    lineStep label cs = some ((), rest) ↔ ∃ line b, WithinLine line ∧ Break b ∧ line ≠ label ∧
      cs = line ++ (b ++ rest) ∧ behind b rest = rest := by
  constructor
  · intro h
    rw [lineStep] at h
    split at h
    · cases h
    · rename_i hnone
      obtain ⟨line, r, rfl, hline, -, hdrop, -⟩ := exists_line cs
      simp only [hdrop, Option.map_eq_some_iff, Prod.mk.injEq, true_and, exists_eq_right] at h
      obtain ⟨b, hb, rfl, hrest⟩ := dropBreak?_eq_some.1 h
      refine ⟨line, b, hline, hb, ?_, rfl, hrest⟩
      rintro rfl
      rw [endLabel?_append hb] at hnone
      cases hnone
  · rintro ⟨line, b, hline, hb, hne, rfl, hrest⟩
    rw [lineStep_append hl hline hb hne, hrest]

/-- A step over a line takes its line break at least. -/
lemma advances_lineStep : Advances (lineStep label) := by
  intro cs _ rest h
  obtain ⟨line, b, -, hb, -, rfl, -⟩ := (lineStep_eq_some hl).1 h
  exact ⟨line ++ b, by simp [hb.ne_nil], by simp⟩

omit hl in
/-- No step leads over the line that ends a document. -/
lemma lineStep_of_endLabel? {cs rest : List Char} (h : endLabel? label cs = some rest) :
    lineStep label cs = none := by
  rw [lineStep, h]

/-! ## The lines of a document up to its end -/

/-- There is nothing to end a document where there are no characters. -/
lemma close_ne_nil {close rest : List Char} (h : endLabel? label close = some rest) :
    close ≠ [] := by
  rintro rfl
  rcases endLabel?_eq_some.1 h with ⟨he, -⟩ | ⟨_, _, he, -⟩
  · exact hl.ne_nil he.symm
  · exact hl.ne_nil (List.append_eq_nil_iff.1 he.symm).1

/-- A document that is ended has a line behind its first one. -/
lemma ne_nil_of_close {body rest : List Char}
    (h : endLabel? label (many (lineStep label) body).2 = some rest) : body ≠ [] := by
  rintro rfl
  exact close_ne_nil hl h (List.suffix_nil.1 (many_suffix (advances_lineStep hl) []))

/-- Where the lines of a document end with its label, so do they if the text ends there.

**Proof sketch.** Induction on the lines. A line is one in front of fewer characters as well, and so
is a line that is the label. -/
lemma close_alone {body rest : List Char}
    (h : endLabel? label (many (lineStep label) body).2 = some rest) :
    ∃ inside close, close ≠ [] ∧ (many (lineStep label) body).2 = close ++ rest ∧
      body = inside ++ (close ++ rest) ∧ (many (lineStep label) (inside ++ close)).2 = close ∧
      endLabel? label close = some [] ∧ behind close rest = rest ∧
      (rest ≠ [] → EndsLine close) := by
  cases hs : lineStep label body with
  | none =>
    rw [many_of_none hs] at h ⊢
    obtain ⟨close, hne, rfl, hclose, hbehind, hline⟩ : ∃ close, close ≠ [] ∧
        body = close ++ rest ∧ endLabel? label close = some [] ∧ behind close rest = rest ∧
        (rest ≠ [] → EndsLine close) := by
      rcases endLabel?_eq_some.1 h with ⟨rfl, rfl⟩ | ⟨b, hb, rfl, hrest⟩
      · exact ⟨body, hl.ne_nil, (List.append_nil _).symm,
          endLabel?_eq_some.2 (.inl ⟨rfl, rfl⟩), behind_nil _, fun hne => absurd rfl hne⟩
      · refine ⟨label ++ b, by simp [hb.ne_nil], by simp,
          endLabel?_eq_some.2 (.inr ⟨b, hb, by simp, behind_nil b⟩), ?_, fun _ => ?_⟩
        · rwa [behind_append_left hb.ne_nil]
        · exact (endsLine_append hb.ne_nil).2 hb.endsLine
    exact ⟨[], close, hne, rfl, rfl, by
      rw [List.nil_append, many_of_none (lineStep_of_endLabel? hclose)], hclose, hbehind, hline⟩
  | some result =>
    obtain ⟨⟨⟩, more⟩ := result
    have hlt := (advances_lineStep hl).length_lt hs
    rw [many_of_some (advances_lineStep hl) hs] at h ⊢
    obtain ⟨line, b, hline, hb, hne, rfl, hmore⟩ := (lineStep_eq_some hl).1 hs
    obtain ⟨inside, close, hclosed, hmany, rfl, halone, hend⟩ := close_alone h
    have hb' : behind b (inside ++ close) = inside ++ close := by
      rw [← List.append_assoc] at hmore
      exact (behind_append (by simp [hclosed]) rest).1 hmore
    refine ⟨line ++ (b ++ inside), close, hclosed, hmany, by simp, ?_, hend⟩
    have hstep := lineStep_append hl hline hb hne (inside ++ close)
    rw [hb'] at hstep
    have hassoc : line ++ (b ++ inside) ++ close = line ++ (b ++ (inside ++ close)) := by simp
    rw [hassoc, many_of_some (advances_lineStep hl) hstep, halone]
termination_by body.length

/-- The lines of a document end with a line break. -/
lemma exists_lines (body : List Char) :
    ∃ inside, body = inside ++ (many (lineStep label) body).2 ∧
      (inside = [] ∨ EndsLine inside) := by
  cases hs : lineStep label body with
  | none => exact ⟨[], by rw [many_of_none hs]; rfl, .inl rfl⟩
  | some result =>
    obtain ⟨⟨⟩, more⟩ := result
    have hlt := (advances_lineStep hl).length_lt hs
    rw [many_of_some (advances_lineStep hl) hs]
    obtain ⟨line, b, -, hb, -, rfl, -⟩ := (lineStep_eq_some hl).1 hs
    obtain ⟨inside, hmore, hends⟩ := exists_lines more
    refine ⟨line ++ (b ++ inside), ?_, .inr ?_⟩
    · conv_lhs => rw [hmore]
      simp
    · rcases hends with rfl | hends
      · rw [List.append_nil, endsLine_append hb.ne_nil]
        exact hb.endsLine
      · have hne : inside ≠ [] := by
          rintro rfl
          exact absurd hends (by decide)
        rwa [← List.append_assoc, endsLine_append hne]
termination_by body.length

/-- More characters behind the end of a document add no lines to it, as long as the label still ends
it. -/
lemma many_lineStep_append {body r rest : List Char} (hne : (many (lineStep label) body).2 ≠ [])
    (h : endLabel? label ((many (lineStep label) body).2 ++ r) = some rest) :
    (many (lineStep label) (body ++ r)).2 = (many (lineStep label) body).2 ++ r := by
  cases hs : lineStep label body with
  | none =>
    rw [many_of_none hs] at h ⊢
    rw [many_of_none (lineStep_of_endLabel? h)]
  | some result =>
    obtain ⟨⟨⟩, more⟩ := result
    have hlt := (advances_lineStep hl).length_lt hs
    rw [many_of_some (advances_lineStep hl) hs] at hne h ⊢
    obtain ⟨line, b, hline, hb, hlabel, rfl, hmore⟩ := (lineStep_eq_some hl).1 hs
    have hne' : more ≠ [] := by
      rintro rfl
      exact hne (List.suffix_nil.1 (many_suffix (advances_lineStep hl) []))
    have hstep := lineStep_append hl hline hb hlabel (more ++ r)
    rw [(behind_append hne' r).2 hmore] at hstep
    have hassoc : line ++ (b ++ more) ++ r = line ++ (b ++ (more ++ r)) := by simp
    rw [hassoc, many_of_some (advances_lineStep hl) hstep]
    exact many_lineStep_append hne h
termination_by body.length

/-- Where the lines of a document end with the text, they end there in front of other characters as
well, as long as these do not come behind a label without a line break. -/
lemma close_before {body r : List Char}
    (h : endLabel? label (many (lineStep label) body).2 = some [])
    (hr : r = [] ∨ EndsLine body) :
    (many (lineStep label) (body ++ r)).2 = (many (lineStep label) body).2 ++ r ∧
      endLabel? label ((many (lineStep label) body).2 ++ r) = some (behind body r) := by
  obtain ⟨inside, hbody, -⟩ := exists_lines hl body
  have hne := close_ne_nil hl h
  have hbehind : behind body r = behind (many (lineStep label) body).2 r := by
    conv_lhs => rw [hbody, behind_append_left hne]
  have hends : EndsLine body ↔ EndsLine (many (lineStep label) body).2 := by
    conv_lhs => rw [hbody, endsLine_append hne]
  have hclose : endLabel? label ((many (lineStep label) body).2 ++ r) = some (behind body r) := by
    rw [hbehind]
    rw [hends] at hr
    rcases endLabel?_eq_some.1 h with ⟨hlabel, -⟩ | ⟨b, hb, hlabel, -⟩
    · rcases hr with rfl | hline
      · rw [List.append_nil, behind_nil, h]
      · rw [hlabel] at hline
        exact absurd hline hl.withinLine.not_endsLine
    · rw [hlabel, List.append_nil, List.append_assoc, endLabel?_append hb,
        behind_append_left hb.ne_nil]
  exact ⟨many_lineStep_append hl hne hclose, hclose⟩

end

/-! ## Documents -/

/-- A document is two marks, a label and its line break, and lines up to one that is the label. -/
lemma hereDocAt_eq_some {cs rest : List Char} {v : Node} :
    hereDocAt cs = some (v, rest) ↔ ∃ label b body, LabelText label ∧ Break b ∧
      behind b body = body ∧ cs = '<' :: '<' :: (label ++ (b ++ body)) ∧
      endLabel? label (many (lineStep label) body).2 = some rest ∧
      v = .string (String.ofList (front body (many (lineStep label) body).2)) := by
  simp only [hereDocAt, bind, Option.bind_eq_some_iff, dropPrefix?_eq_some, dropChar?_eq_some,
    Option.some.injEq, Prod.mk.injEq]
  constructor
  · rintro ⟨cs, rfl, _, ⟨c, hc, rfl⟩, body, hbody, rest, hrest, rfl, rfl⟩
    obtain ⟨label, r, hcs, hlabel, hr⟩ := exists_split labelSet.contains (c :: _)
    obtain ⟨htake, hdrop⟩ := takeWhile_dropWhile_of_split hlabel hr
    rw [hcs, hdrop] at hbody
    rw [hcs, htake] at hrest ⊢
    obtain ⟨b, hb, rfl, hbehind⟩ := dropBreak?_eq_some.1 hbody
    refine ⟨label, b, body, ⟨?_, hlabel⟩, hb, hbehind, rfl, hrest, rfl⟩
    rintro rfl
    rw [List.nil_append] at hcs
    exact absurd hc (by simp [hr c (by rw [← hcs]; rfl)])
  · rintro ⟨label, b, body, hl, hb, hbehind, rfl, hrest, rfl⟩
    have hr : ∀ c ∈ (b ++ body).head?, labelSet.contains c = false := by
      intro c hc
      by_contra hset
      obtain ⟨d, hd, hline⟩ := hb.head body
      obtain rfl : c = d := Option.some.inj (hc.symm.trans hd)
      simp only [endsLine, decide_eq_true_eq] at hline
      rcases hline with rfl | rfl <;> exact hset (by decide)
    obtain ⟨htake, hdrop⟩ := takeWhile_dropWhile_of_split hl.chars hr
    refine ⟨label ++ (b ++ body), rfl, ?_⟩
    rw [htake, hdrop]
    obtain ⟨c, label, rfl⟩ := List.exists_cons_of_ne_nil hl.ne_nil
    refine ⟨_, ⟨c, hl.chars c (by simp), rfl⟩, body, ?_, rest, hrest, rfl, rfl⟩
    rw [dropBreak?_append hb, hbehind]

/-- A document starts with its mark. -/
lemma starts_hereDocAt : hereDocAt.Starts (· == '<') := by
  intro cs v rest h
  obtain ⟨label, b, body, -, -, -, rfl, -⟩ := hereDocAt_eq_some.1 h
  exact ⟨'<', rfl, by decide⟩

/-- A document is read in front of other characters as on its own. -/
lemma cuts_hereDocAt : hereDocAt.Cuts where
  alone cs v rest h := by
    obtain ⟨label, b, body, hl, hb, hbehind, rfl, hrest, rfl⟩ := hereDocAt_eq_some.1 h
    obtain ⟨inside, close, hclosed, hmany, rfl, halone, hclose, hend, hline⟩ := close_alone hl hrest
    have hb' : behind b (inside ++ close) = inside ++ close := by
      rw [← List.append_assoc] at hbehind
      exact (behind_append (by simp [hclosed]) rest).1 hbehind
    refine ⟨'<' :: '<' :: (label ++ (b ++ (inside ++ close))), by simp, by simp, ?_, ?_, ?_⟩
    · refine hereDocAt_eq_some.2 ⟨label, b, inside ++ close, hl, hb, hb', rfl, ?_, ?_⟩
      · rw [halone, hclose]
      · rw [hmany, halone, front_append, front_append]
    · have hassoc : '<' :: '<' :: (label ++ (b ++ (inside ++ close))) =
        ('<' :: '<' :: (label ++ b ++ inside)) ++ close := by simp
      rw [hassoc, behind_append_left hclosed, hend]
    · have hassoc : '<' :: '<' :: (label ++ (b ++ (inside ++ close))) =
        ('<' :: '<' :: (label ++ b ++ inside)) ++ close := by simp
      rw [hassoc, endsLine_append hclosed]
      exact fun hne _ => hline hne
  before a v r h hr := by
    obtain ⟨label, b, body, hl, hb, hbehind, rfl, hrest, rfl⟩ := hereDocAt_eq_some.1 h
    have hne := ne_nil_of_close hl hrest
    have hassoc : '<' :: '<' :: (label ++ (b ++ body)) = ('<' :: '<' :: (label ++ b)) ++ body := by
      simp
    have hends : r = [] ∨ EndsLine body := by
      rw [hassoc] at hr
      rcases hr with hr | hline | ⟨-, hmark⟩
      · exact .inl hr
      · exact .inr ((endsLine_append hne).1 hline)
      · exact absurd rfl hmark
    obtain ⟨hmany, hclose⟩ := close_before hl hrest hends
    refine hereDocAt_eq_some.2 ⟨label, b, body ++ r, hl, hb, (behind_append hne r).2 hbehind,
      by simp, ?_, ?_⟩
    · rw [hmany, hclose, hassoc, behind_append_left hne]
    · rw [hmany, front_append_append (many_suffix (advances_lineStep hl) body)]
  line a v h _ := by
    obtain ⟨c, hc, hfirst⟩ := starts_hereDocAt a v [] h
    rwa [eq_of_beq hfirst] at hc

end Packrat.Program
