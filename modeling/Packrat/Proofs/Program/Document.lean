import Packrat.Proofs.Program.InPlace
set_option autoImplicit false
set_option relaxedAutoImplicit false

/-!
# Documents, line by line

A text is cut into lines at its line breaks, where a carriage return and a line feed behind it are
one break. The last line is ended by the end of the text, and is empty behind a line break.

A document consists of whole lines. The first of them is the label behind two marks. The document
ends with the next line that is the label and nothing else, and is the text of all the lines between
these two.

## Main definitions

* `Packrat.Program.Line`, `Packrat.Program.lines` — the lines of a text.
* `Packrat.Program.unlines` — the text of some lines.

## Main results

* `Packrat.Program.unlines_lines` — the lines of a text make it up.
* `Packrat.Program.hereDocAt_eq_some_iff_lines` — what is read of a document, line by line.
* `Packrat.Program.hereDoc_matches` — when there is a document at a position, and what is one.
-/

namespace Packrat.Program

/-! ## Lines -/

/-- A line of a text, and the line break behind it, if there is one. -/
structure Line where
  chars : List Char
  ending : List Char
deriving DecidableEq

/-- The lines of a text. -/
def lines : List Char → List Line
  | '\r' :: '\n' :: cs => ⟨[], ['\r', '\n']⟩ :: lines cs
  | '\n' :: cs => ⟨[], ['\n']⟩ :: lines cs
  | '\r' :: cs => ⟨[], ['\r']⟩ :: lines cs
  | c :: cs => (lines cs).modifyHead fun line => { line with chars := c :: line.chars }
  | [] => [⟨[], []⟩]

/-- The text of some lines. -/
def unlines (ls : List Line) : List Char := ls.flatMap fun line => line.chars ++ line.ending

/-- The text of no lines is empty. -/
@[simp] lemma unlines_nil : unlines [] = [] := rfl

/-- The text of some lines is that of the first one, its line break, and the text of the others. -/
@[simp] lemma unlines_cons (line : Line) (ls : List Line) :
    unlines (line :: ls) = line.chars ++ (line.ending ++ unlines ls) := by
  simp [unlines]

/-- The texts of two rows of lines are one behind the other. -/
@[simp] lemma unlines_append (ls more : List Line) :
    unlines (ls ++ more) = unlines ls ++ unlines more := by
  simp [unlines]

/-- A character that is no part of a line break belongs to the first line. -/
lemma lines_cons {c : Char} (hc : endsLine c = false) (cs : List Char) :
    lines (c :: cs) = (lines cs).modifyHead fun line => { line with chars := c :: line.chars } := by
  have hn : c ≠ '\n' := by
    rintro rfl
    exact absurd hc (by decide)
  have hr : c ≠ '\r' := by
    rintro rfl
    exact absurd hc (by decide)
  rw [lines]
  · rintro _ rfl -
    exact hr rfl
  · exact hn
  · exact hr

/-- A line break ends the first line. -/
lemma lines_break {b rest : List Char} (hb : Break b) (hrest : behind b rest = rest) :
    lines (b ++ rest) = ⟨[], b⟩ :: lines rest := by
  cases hb with
  | crlf => rfl
  | lf => rfl
  | cr =>
    cases rest with
    | nil => rfl
    | cons c rest =>
      have hc : c ≠ '\n' := by
        rintro rfl
        exact absurd hrest (by simp [behind])
      rw [List.singleton_append, lines]
      rintro _ ⟨⟩
      exact hc rfl

/-- What stands in front of the first line break is the first line. -/
lemma lines_append {line b : List Char} (hline : WithinLine line) (hb : Break b) {rest : List Char}
    (hrest : behind b rest = rest) : lines (line ++ (b ++ rest)) = ⟨line, b⟩ :: lines rest := by
  induction line with
  | nil => exact lines_break hb hrest
  | cons c line ih =>
    rw [List.cons_append, lines_cons (hline c List.mem_cons_self),
      ih fun d hd => hline d (List.mem_cons_of_mem _ hd)]
    rfl

/-- A text without a line break is one line. -/
lemma lines_of_withinLine {line : List Char} (hline : WithinLine line) :
    lines line = [⟨line, []⟩] := by
  induction line with
  | nil => rfl
  | cons c line ih =>
    rw [lines_cons (hline c List.mem_cons_self), ih fun d hd => hline d (List.mem_cons_of_mem _ hd)]
    rfl

/-- A text is a single line, or has a first line with a line break and other lines behind it. -/
lemma lines_cases (cs : List Char) :
    (WithinLine cs ∧ lines cs = [⟨cs, []⟩]) ∨ ∃ line b rest, WithinLine line ∧ Break b ∧
      behind b rest = rest ∧ cs = line ++ (b ++ rest) ∧ lines cs = ⟨line, b⟩ :: lines rest := by
  obtain ⟨line, r, rfl, hline, hr, -, -⟩ := exists_line cs
  cases hbreak : dropBreak? r with
  | none =>
    have hnil : r = [] := by
      cases r with
      | nil => rfl
      | cons c r => exact absurd (hr c rfl) (by simp [dropBreak?_eq_none.1 hbreak c rfl])
    rw [hnil, List.append_nil]
    exact .inl ⟨hline, lines_of_withinLine hline⟩
  | some rest =>
    obtain ⟨b, hb, rfl, hrest⟩ := dropBreak?_eq_some.1 hbreak
    exact .inr ⟨line, b, rest, hline, hb, hrest, rfl, lines_append hline hb hrest⟩

/-- The lines of a text make it up. -/
theorem unlines_lines (cs : List Char) : unlines (lines cs) = cs := by
  rcases lines_cases cs with ⟨-, hlines⟩ | ⟨line, b, rest, -, hb, -, rfl, hlines⟩
  · rw [hlines]
    simp
  · have hpos := List.length_pos_iff.2 hb.ne_nil
    have hlt : rest.length < (line ++ (b ++ rest)).length := by
      simp only [List.length_append]
      omega
    rw [hlines, unlines_cons, unlines_lines rest]
termination_by cs.length

/-- There is no line break within a line. -/
lemma WithinLine.not_break {a b r : List Char} (h : WithinLine (a ++ (b ++ r))) : ¬ Break b := by
  intro hb
  obtain ⟨c, more, rfl, hc⟩ := hb.exists_cons
  exact absurd hc (by simp [h c (by simp)])

/-- Where a line is a given one, there is a first line that is. -/
lemma exists_first {ls : List Line} {label : List Char} (h : ∃ line ∈ ls, line.chars = label) :
    ∃ before line after, ls = before ++ line :: after ∧ line.chars = label ∧
      ∀ other ∈ before, other.chars ≠ label := by
  obtain ⟨line, hfound⟩ :
      ∃ line, ls.find? (fun line => decide (line.chars = label)) = some line := by
    rw [← Option.isSome_iff_exists, List.find?_isSome]
    simpa using h
  obtain ⟨hline, before, after, rfl, hbefore⟩ := List.find?_eq_some_iff_append.1 hfound
  exact ⟨before, line, after, rfl, by simpa using hline, by simpa using hbefore⟩

/-- In front of some of the lines are the characters of the others. -/
lemma front_of_lines {cs : List Char} {before after : List Line} (h : lines cs = before ++ after) :
    front cs (unlines after) = unlines before := by
  rw [← unlines_lines cs, h, unlines_append, front_append]

/-! ## Documents -/

section

variable {label : List Char} (hl : LabelText label)

include hl

/-- The lines of a document are passed over up to the first one that is its label; that one is left,
with all that is behind it.

**Proof sketch.** Induction on the lines in front of the label. -/
lemma close_of_lines {body : List Char} {before after : List Line} {line : Line}
    (hlines : lines body = before ++ line :: after) (hline : line.chars = label)
    (hbefore : ∀ other ∈ before, other.chars ≠ label) :
    (many (lineStep label) body).2 = unlines (line :: after) ∧
      endLabel? label (unlines (line :: after)) = some (unlines after) := by
  induction before generalizing body with
  | nil =>
    have hclose : endLabel? label body = some (unlines after) := by
      rcases lines_cases body with ⟨-, hone⟩ | ⟨first, b, rest, -, hb, hrest, rfl, hmore⟩
      · rw [hone, List.nil_append, List.cons.injEq] at hlines
        obtain ⟨rfl, rfl⟩ := hlines
        exact endLabel?_eq_some.2 (.inl ⟨hline, rfl⟩)
      · rw [hmore, List.nil_append, List.cons.injEq] at hlines
        obtain ⟨rfl, rfl⟩ := hlines
        obtain rfl : first = label := hline
        rw [endLabel?_append hb, hrest, unlines_lines]
    have hbody : unlines (line :: after) = body := by
      rw [← List.nil_append (line :: after), ← hlines, unlines_lines]
    rw [hbody, many_of_none (lineStep_of_endLabel? hclose)]
    exact ⟨rfl, hclose⟩
  | cons other before ih =>
    obtain ⟨hother, hothers⟩ := List.forall_mem_cons.1 hbefore
    rcases lines_cases body with ⟨-, hone⟩ | ⟨first, b, rest, hfirst, hb, hrest, rfl, hmore⟩
    · rw [hone] at hlines
      simp at hlines
    · rw [hmore, List.cons_append, List.cons.injEq] at hlines
      obtain ⟨rfl, hlines⟩ := hlines
      have hstep := lineStep_append hl hfirst hb hother rest
      rw [hrest] at hstep
      rw [many_of_some (advances_lineStep hl) hstep]
      exact ih hlines hothers

/-- A document only ends where one of its lines is its label.

**Proof sketch.** Induction on the lines. -/
lemma exists_line_of_close {body rest : List Char}
    (h : endLabel? label (many (lineStep label) body).2 = some rest) :
    ∃ line ∈ lines body, line.chars = label := by
  rcases lines_cases body with ⟨hwithin, hone⟩ | ⟨line, b, more, hline, hb, hrest, rfl, hmore⟩
  · cases hstep : lineStep label body with
    | none =>
      rw [many_of_none hstep] at h
      rcases endLabel?_eq_some.1 h with ⟨hbody, -⟩ | ⟨b, hb, rfl, -⟩
      · exact ⟨⟨body, []⟩, by simp [hone], hbody⟩
      · exact absurd hb hwithin.not_break
    | some result =>
      obtain ⟨⟨⟩, left⟩ := result
      obtain ⟨line, b, -, hb, -, rfl, -⟩ := (lineStep_eq_some hl).1 hstep
      exact absurd hb hwithin.not_break
  · rw [hmore]
    by_cases hlabel : line = label
    · exact ⟨⟨line, b⟩, List.mem_cons_self, hlabel⟩
    · have hstep := lineStep_append hl hline hb hlabel more
      rw [hrest] at hstep
      have hlt := (advances_lineStep hl).length_lt hstep
      rw [many_of_some (advances_lineStep hl) hstep] at h
      obtain ⟨other, hmem, hother⟩ := exists_line_of_close h
      exact ⟨other, List.mem_cons_of_mem _ hmem, hother⟩
termination_by body.length

end

/-- The longest row of characters behind two marks of which a label is made. -/
def labelAhead (cs : List Char) : List Char := (cs.drop 2).takeWhile labelSet.contains

/-- The label that is ahead of a document is the one that a line break ends. -/
lemma labelAhead_eq {cs label b more : List Char} (hl : LabelText label) (hb : Break b)
    (hcs : cs.drop 2 = label ++ (b ++ more)) : labelAhead cs = label := by
  have hmore : ∀ c ∈ (b ++ more).head?, labelSet.contains c = false := by
    obtain ⟨d, hd, hline⟩ := hb.head more
    intro c hc
    obtain rfl : c = d := Option.some.inj (hc.symm.trans hd)
    by_contra hset
    simp only [endsLine, decide_eq_true_eq] at hline
    rcases hline with rfl | rfl <;> exact hset (by decide)
  rw [labelAhead, hcs]
  exact (takeWhile_dropWhile_of_split hl.chars hmore).1

/-- What is read of a document, line by line. -/
theorem hereDocAt_eq_some_iff_lines {cs rest : List Char} {v : Node} :
    hereDocAt cs = some (v, rest) ↔ ['<', '<'] <+: cs ∧ labelAhead cs ≠ [] ∧
      ∃ b before line after, Break b ∧
        lines (cs.drop 2) = ⟨labelAhead cs, b⟩ :: (before ++ line :: after) ∧
        line.chars = labelAhead cs ∧ (∀ other ∈ before, other.chars ≠ labelAhead cs) ∧
        rest = unlines after ∧ v = .string (String.ofList (unlines before)) := by
  constructor
  · intro h
    obtain ⟨label, b, body, hl, hb, hbody, rfl, hclose, rfl⟩ := hereDocAt_eq_some.1 h
    have hlabel : labelAhead ('<' :: '<' :: (label ++ (b ++ body))) = label :=
      labelAhead_eq hl hb rfl
    obtain ⟨before, line, after, hlines, hline, hbefore⟩ :=
      exists_first (exists_line_of_close hl hclose)
    obtain ⟨hleft, hrest⟩ := close_of_lines hl hlines hline hbefore
    rw [hleft, hrest] at hclose
    rw [hlabel]
    refine ⟨⟨_, rfl⟩, hl.ne_nil, b, before, line, after, hb, ?_, hline, hbefore, ?_, ?_⟩
    · rw [← hlines]
      exact lines_append hl.withinLine hb hbody
    · exact (Option.some.inj hclose).symm
    · rw [hleft, front_of_lines hlines]
  · rintro ⟨⟨more, rfl⟩, hne, b, before, line, after, hb, hlines, hline, hbefore, rfl, rfl⟩
    have hl : LabelText (labelAhead (['<', '<'] ++ more)) :=
      ⟨hne, fun c hc => List.mem_takeWhile_imp hc⟩
    change lines more = _ at hlines
    rcases lines_cases more with ⟨-, hone⟩ | ⟨first, b, body, -, -, hbody, hmore, hothers⟩
    · rw [hone] at hlines
      simp at hlines
    · rw [hothers, List.cons.injEq, Line.mk.injEq] at hlines
      obtain ⟨⟨hfirst, rfl⟩, hlines⟩ := hlines
      obtain ⟨hleft, hclose⟩ := close_of_lines hl hlines hline hbefore
      refine hereDocAt_eq_some.2 ⟨_, b, body, hl, hb, hbody, ?_, ?_, ?_⟩
      · rw [← hfirst, ← hmore]
        rfl
      · rw [hleft, hclose]
      · rw [hleft, front_of_lines hlines]

/-! ## Documents at a position -/

/-- When there is a document at a position, and what is one, in every sound state and within any
limit that documents fit.

* There is one just if two marks stand there, a label behind them that is not empty, a line break
  directly behind the longest such label, and that label again as a whole line later on.
* It goes on up to the line break behind the first such line, or to the end of the text if there is
  none, and is the text of all lines between the label and that line.

**Proof sketch.** Documents are read line by line, and a phrase matches what its reader reads. -/
theorem hereDoc_matches (text : String) (position : Nat) (scope : Scope) {limit : Nat}
    (hlimit : 14 ≤ limit) {run : Run Phrase Node} (hrun : run.Sound grammar (.ofString text)) :
    ((∃ result, (grammar.apply (.ofString text) limit (.named .hereDoc) position scope run).1 =
        .matched result) ↔
      ['<', '<'] <+: text.toList.drop position ∧ labelAhead (text.toList.drop position) ≠ [] ∧
        ∃ b later, Break b ∧
          lines (text.toList.drop (position + 2)) =
            ⟨labelAhead (text.toList.drop position), b⟩ :: later ∧
          ∃ line ∈ later, line.chars = labelAhead (text.toList.drop position)) ∧
    ∀ result, (grammar.apply (.ofString text) limit (.named .hereDoc) position scope run).1 =
        .matched result →
      ∃ first before line after,
        lines (text.toList.drop (position + 2)) = first :: (before ++ line :: after) ∧
        first.chars = labelAhead (text.toList.drop position) ∧
        line.chars = labelAhead (text.toList.drop position) ∧
        (∀ other ∈ before, other.chars ≠ labelAhead (text.toList.drop position)) ∧
        result = ⟨⟨position + 2 + (unlines (first :: (before ++ [line]))).length,
          some (.object (.string (String.ofList (unlines before))))⟩, scope⟩ := by
  have hfits : grammar.fits 14 (.named .hereDoc) = true := by decide +kernel
  have hdeep := not_tooDeep_of_fits hfits hlimit text position scope run
  have hahead : text.toList.drop (position + 2) = (text.toList.drop position).drop 2 := by
    rw [List.drop_drop]
  rw [hahead]
  constructor
  · rw [readBy_hereDoc.exists_matched_iff hrun hdeep]
    constructor
    · rintro ⟨v, rest, hread⟩
      obtain ⟨hmarks, hlabel, b, before, line, after, hb, hlines, hline, -, -, -⟩ :=
        hereDocAt_eq_some_iff_lines.1 hread
      exact ⟨hmarks, hlabel, b, _, hb, hlines, line, by simp, hline⟩
    · rintro ⟨hmarks, hlabel, b, later, hb, hlines, hlater⟩
      obtain ⟨before, line, after, rfl, hline, hbefore⟩ := exists_first hlater
      exact ⟨_, _, hereDocAt_eq_some_iff_lines.2
        ⟨hmarks, hlabel, b, before, line, after, hb, hlines, hline, hbefore, rfl, rfl⟩⟩
  · intro result hresult
    obtain ⟨chars, rest, v, hchars, hread, rfl⟩ :=
      (readBy_hereDoc.apply_eq_matched_iff hrun hdeep result).1 hresult
    rw [hchars]
    obtain ⟨⟨more, hmore⟩, -, b, before, line, after, -, hlines, hline, hbefore, rfl, rfl⟩ :=
      hereDocAt_eq_some_iff_lines.1 hread
    refine ⟨_, before, line, after, hlines, rfl, hline, hbefore, ?_⟩
    have hall := congrArg List.length (unlines_lines ((chars ++ unlines after).drop 2))
    have hmarks := congrArg List.length hmore
    rw [hlines] at hall
    simp only [List.length_append, List.length_drop, unlines_cons, unlines_append, unlines_nil,
      List.length_cons, List.length_nil] at hall hmarks ⊢
    congr 2
    omega

/-- A document with one line, which begins with its label but is longer. -/
theorem hereDoc_matches_longer_line :
    14 ≤ 14 ∧ (Run.fresh true false).Sound grammar (.ofString "x <<A\r\nAB\nA\ny") ∧
      ∃ result, (grammar.apply (.ofString "x <<A\r\nAB\nA\ny") 14 (.named .hereDoc) 2 []
        (.fresh true false)).1 = .matched result := by
  have hsound : (Run.fresh true false).Sound grammar (.ofString "x <<A\r\nAB\nA\ny") :=
    Run.sound_fresh true false
  refine ⟨le_refl 14, hsound,
    (hereDoc_matches _ 2 [] (le_refl 14) hsound).1.2 ⟨by decide, by decide, ?_⟩⟩
  exact ⟨['\r', '\n'], _, .crlf, rfl, ⟨['A'], ['\n']⟩, by decide, rfl⟩

end Packrat.Program
