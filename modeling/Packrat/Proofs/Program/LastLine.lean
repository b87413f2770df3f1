import Packrat.Proofs.Program.Steps
set_option autoImplicit false
set_option relaxedAutoImplicit false

/-!
# The last line of a text

An object that is spelled at the end of a text is spelled in front of a line break as well: if it
ends with a document without a closing line break, that is the one.

## Main definitions

* `Packrat.Program.EndsInLabel` — the last line of a text looks like the end of a document.

## Main results

* `Packrat.Program.Spells.close` — an object that ends its line is spelled so wherever it stands.
* `Packrat.Program.Spells.newline` — a document at the end takes a line feed for its closing line
  break.
-/

namespace Packrat.Program

/-- The last line of the text is a label, with nothing or a carriage return behind it. -/
def EndsInLabel (cs : List Char) : Prop :=
  ∃ before label, EndsLine before ∧ LabelText label ∧
    (cs = before ++ label ∨ cs = before ++ (label ++ ['\r']))

/-- What is in front of a text does not change its last line. -/
lemma EndsInLabel.prepend {cs : List Char} (h : EndsInLabel cs) (a : List Char) :
    EndsInLabel (a ++ cs) := by
  obtain ⟨before, label, hline, hl, hcs⟩ := h
  have hne : before ≠ [] := by
    rintro rfl
    exact absurd hline (by decide)
  refine ⟨a ++ before, label, (endsLine_append hne).2 hline, hl, ?_⟩
  simpa only [List.append_assoc, List.append_cancel_left_eq] using hcs

/-! ## Simple objects -/

/-- A sign lies within a line. -/
lemma SignText.withinLine {s : Option String} {p : List Char} (h : SignText s p) :
    WithinLine p := by
  cases h <;> decide

/-- A number without a point lies within a line. -/
lemma withinLine_integerAt {o : List Char} {v : Node} (h : integerAt o = some (v, [])) :
    WithinLine o := by
  obtain ⟨s, p, a, hp, ha, -, rfl, -⟩ := integerAt_eq_some.1 h
  rw [List.append_nil]
  exact withinLine_append hp.withinLine (withinLine_of_wordSet ha.wordSet)

/-- A number with a point lies within a line. -/
lemma withinLine_decimalAt {o : List Char} {v : Node} (h : decimalAt o = some (v, [])) :
    WithinLine o := by
  obtain ⟨s, p, a, b, hp, ha, hb, -, rfl, -⟩ := decimalAt_eq_some.1 h
  have hwhole : WithinLine a := by
    rcases ha with rfl | ha
    · decide
    · exact withinLine_of_wordSet ha.wordSet
  have hpoint : WithinLine ['.'] := by decide
  rw [List.append_nil, ← List.singleton_append]
  exact withinLine_append hp.withinLine
    (withinLine_append hwhole (withinLine_append hpoint (withinLine_of_wordSet hb.wordSet)))

/-- A character lies within a line. -/
lemma withinLine_characterAt {o : List Char} {v : Node} (h : characterAt o = some (v, [])) :
    WithinLine o := by
  obtain ⟨c, hc, rfl, -⟩ := characterAt_eq_some.1 h
  have hmark : WithinLine ['\x60'] := by decide
  rw [← List.singleton_append]
  exact withinLine_append hmark (withinLine_of_wordSet (by simpa using hc))

/-- A symbol lies within a line. -/
lemma withinLine_symbolAt {o : List Char} {v : Node} (h : symbolAt o = some (v, [])) :
    WithinLine o := by
  obtain ⟨name, -, hname, -, rfl, -⟩ := symbolAt_eq_some.1 h
  have hmark : WithinLine [':'] := by decide
  rw [List.append_nil, ← List.singleton_append]
  exact withinLine_append hmark
    (withinLine_of_wordSet fun c hc => wordSet_of_letterSet (hname c hc))

/-- An end of a range lies within a line. -/
lemma withinLine_endpointAt {o : List Char} {v : Node} (h : endpointAt o = some (v, [])) :
    WithinLine o := by
  rcases Option.or_eq_some_iff.1 h with hinteger | ⟨-, hcharacter⟩
  · exact withinLine_integerAt hinteger
  · exact withinLine_characterAt hcharacter

/-- Spaces lie within a line. -/
lemma Spaces.withinLine {pad : List Char} (h : Spaces pad) : WithinLine pad := by
  intro c hc
  rcases h c hc with rfl | rfl <;> rfl

/-- A simple object lies within a line, or it is a document or ends with a mark. -/
lemma simpleAt_last {o : List Char} {v : Node} (h : simpleAt o = some (v, [])) :
    WithinLine o ∨ o.head? = some '<' ∨
      ∃ inside mark, o = inside ++ [mark] ∧ wordSet.contains mark = false := by
  have hword : ∀ {word : List Char} {node : Node}, wordAt word node o = some (v, []) →
      WithinLine word → WithinLine o := by
    intro word node hread hline
    simp only [wordAt, Option.map_eq_some_iff, dropPrefix?_eq_some, Prod.mk.injEq] at hread
    obtain ⟨rest, rfl, -, rfl⟩ := hread
    rwa [List.append_nil]
  have hquoted : ∀ {mark : Char} {make : String → Node}, quotedAt mark make o = some (v, []) →
      wordSet.contains mark = false →
      ∃ inside mark, o = inside ++ [mark] ∧ wordSet.contains mark = false := by
    intro mark make hread hmark
    obtain ⟨body, -, rfl, -⟩ := quotedAt_eq_some.1 hread
    exact ⟨mark :: body, mark, rfl, hmark⟩
  simp only [simpleAt, booleanAt, numericAt, stringAt, Option.or_eq_some_iff] at h
  rcases h with hnil | ⟨-, (htrue | ⟨-, hfalse⟩) | ⟨-, (hdecimal | ⟨-, hinteger⟩) |
    ⟨-, hcharacter | ⟨-, (hsymbol | ⟨-, hsingle | ⟨-, hdouble | ⟨-, hhere⟩⟩⟩) | ⟨-, hregex⟩⟩⟩⟩⟩
  · exact .inl (hword hnil (by decide))
  · exact .inl (hword htrue (by decide))
  · exact .inl (hword hfalse (by decide))
  · exact .inl (withinLine_decimalAt hdecimal)
  · exact .inl (withinLine_integerAt hinteger)
  · exact .inl (withinLine_characterAt hcharacter)
  · exact .inl (withinLine_symbolAt hsymbol)
  · exact .inr (.inr (hquoted hsingle (by decide)))
  · exact .inr (.inr (hquoted hdouble (by decide)))
  · obtain ⟨c, hc, hfirst⟩ := starts_hereDocAt o v [] hhere
    rw [eq_of_beq hfirst] at hc
    exact .inr (.inl hc)
  · exact .inr (.inr (hquoted hregex (by decide)))

/-! ## Documents -/

/-- A document has lines up to its label, and the label with a line break or the end of the text
behind it. -/
lemma hereDocAt_parts {o : List Char} {v : Node} (h : hereDocAt o = some (v, [])) :
    ∃ before label close, EndsLine before ∧ LabelText label ∧ o = before ++ (label ++ close) ∧
      (close = [] ∨ Break close) ∧ (close = [] → hereDocAt (o ++ ['\n']) = some (v, [])) := by
  obtain ⟨label, b, body, hl, hb, hbehind, rfl, hclose, rfl⟩ := hereDocAt_eq_some.1 h
  obtain ⟨inside, hbody, hinside⟩ := exists_lines hl body
  have hbefore : EndsLine ('<' :: '<' :: (label ++ (b ++ inside))) := by
    have hassoc : '<' :: '<' :: (label ++ (b ++ inside)) =
        ('<' :: '<' :: label ++ b) ++ inside := by
      simp
    rcases hinside with rfl | hline
    · rw [hassoc, List.append_nil, endsLine_append hb.ne_nil]
      exact hb.endsLine
    · have hne : inside ≠ [] := by
        rintro rfl
        exact absurd hline (by decide)
      rwa [hassoc, endsLine_append hne]
  have hsplit : ∀ {close}, (many (lineStep label) body).2 = label ++ close →
      '<' :: '<' :: (label ++ (b ++ body)) =
        '<' :: '<' :: (label ++ (b ++ inside)) ++ (label ++ close) := by
    intro close hc
    conv_lhs => rw [hbody, hc]
    simp
  rcases endLabel?_eq_some.1 hclose with ⟨hlabel, -⟩ | ⟨b', hb', hlabel, -⟩
  · have hwhole : (many (lineStep label) body).2 = label ++ [] := by rw [hlabel, List.append_nil]
    refine ⟨_, label, [], hbefore, hl, hsplit hwhole, .inl rfl, fun _ => ?_⟩
    have hend : endLabel? label ((many (lineStep label) body).2 ++ ['\n']) = some [] := by
      rw [hlabel]
      exact endLabel?_append .lf []
    have hmany := many_lineStep_append hl (close_ne_nil hl hclose) hend
    have hne := ne_nil_of_close hl hclose
    refine hereDocAt_eq_some.2 ⟨label, b, body ++ ['\n'], hl, hb, (behind_append hne _).2 hbehind,
      by simp, by rw [hmany, hend], ?_⟩
    rw [hmany, front_append_append (many_suffix (advances_lineStep hl) body)]
  · rw [List.append_nil] at hlabel
    exact ⟨_, label, b', hbefore, hl, hsplit hlabel, .inr hb', fun hnil => absurd hnil hb'.ne_nil⟩

/-- A document without a closing line break may be given a line feed. -/
lemma hereDocAt_newline {o : List Char} {v : Node} (h : hereDocAt o = some (v, []))
    (hline : ¬ EndsLine o) : hereDocAt (o ++ ['\n']) = some (v, []) ∧ EndsInLabel o := by
  obtain ⟨before, label, close, hbefore, hl, rfl, hclose, hnewline⟩ := hereDocAt_parts h
  rcases hclose with rfl | hb
  · exact ⟨hnewline rfl, before, label, hbefore, hl, .inl (by rw [List.append_nil])⟩
  · refine absurd ?_ hline
    rw [← List.append_assoc, endsLine_append hb.ne_nil]
    exact hb.endsLine

/-- A document that ends with a carriage return has it behind its label. -/
lemma endsInLabel_of_hereDocAt {o : List Char} {v : Node} (h : hereDocAt o = some (v, []))
    (hlast : o.getLast? = some '\r') : EndsInLabel o := by
  obtain ⟨before, label, close, hbefore, hl, rfl, hclose, -⟩ := hereDocAt_parts h
  refine ⟨before, label, hbefore, hl, ?_⟩
  rcases hclose with rfl | hb
  · exact .inl (by rw [List.append_nil])
  · rw [← List.append_assoc, List.getLast?_append_of_ne_nil _ hb.ne_nil] at hlast
    cases hb with
    | crlf | lf => cases hlast
    | cr => exact .inr rfl

/-! ## Objects -/

/-- An object that ends its line has the closing line break of its document. If that is a carriage
return, it stands behind a label. -/
lemma Spells.close {o : List Char} {v : Node} (h : Spells False o v) (hline : EndsLine o) :
    Spells True o v ∧ (o.getLast? = some '\r' → EndsInLabel o) := by
  induction h, hline using Spells.induction_endsLine with
  | document hread _ hline =>
    have ha := accepts_simpleObject.2 (simpleAt_of_hereDocAt hread)
    exact ⟨.simple ha fun _ _ => hline, endsInLabel_of_hereDocAt hread⟩
  | value ha hclosed hpad hpad' hb _ ih =>
    obtain ⟨hvalue, hlabel⟩ := ih
    refine ⟨.keyValue ha hclosed hpad hpad' hvalue, ?_⟩
    rw [pair_eq_append, List.getLast?_append_of_ne_nil _ hb.ne_nil]
    exact fun hlast => (hlabel hlast).prepend _

/-- What is spelled wherever it stands is spelled at the end of a text as well. -/
lemma Spells.weaken {closed : Prop} {o : List Char} {v : Node} (h : Spells True o v) :
    Spells closed o v := by
  induction h using Spells.induction_value with
  | simple ha hclosed => exact .simple ha fun _ => hclosed trivial
  | keyValue ha hclosed hpad hpad' _ ih => exact .keyValue ha hclosed hpad hpad' ih
  | range ha hpad hx hpad' hb => exact .range ha hpad hx hpad' hb
  | hash hpairs hall => exact .hash hpairs hall
  | list hitems => exact .list hitems

/-- An object that does not end its line is spelled so wherever it stands, or it ends with a
document that takes a line feed for its closing line break. -/
lemma Spells.newline {o : List Char} {v : Node} (h : Spells False o v) (hline : ¬ EndsLine o) :
    Spells True o v ∨ (Spells True (o ++ ['\n']) v ∧ EndsInLabel o) := by
  induction h using Spells.induction_value with
  | @simple o v ha _ =>
    by_cases hdocument : Accepts .hereDoc o v
    · obtain ⟨hnewline, hlabel⟩ := hereDocAt_newline (accepts_hereDoc.1 hdocument) hline
      have hsame : simpleAt (o ++ ['\n']) = some (v, []) := simpleAt_of_hereDocAt hnewline
      have hends : EndsLine (o ++ ['\n']) := (endsLine_append (by simp)).2 (by decide)
      exact .inr ⟨.simple (accepts_simpleObject.2 hsame) fun _ _ => hends, hlabel⟩
    · exact .inl (.simple ha fun _ hd => absurd hd hdocument)
  | keyValue ha hclosed hpad hpad' hb ih =>
    rcases ih (mt (endsLine_pair hb.ne_nil).2 hline) with hvalue | ⟨hvalue, hlabel⟩
    · exact .inl (.keyValue ha hclosed hpad hpad' hvalue)
    · refine .inr ⟨?_, ?_⟩
      · rw [pair_append]
        exact .keyValue ha hclosed hpad hpad' hvalue
      · rw [pair_eq_append]
        exact hlabel.prepend _
  | range ha hpad hx hpad' hb => exact .inl (.range ha hpad hx hpad' hb)
  | hash hpairs hall => exact .inl (.hash hpairs hall)
  | list hitems => exact .inl (.list hitems)

/-! ## Objects in front of others do not end with a label -/

/-- The last character of a text that ends with a label is one of the label. -/
lemma LabelText.last {label before inside : List Char} {mark : Char} (hl : LabelText label)
    (h : before ++ label = inside ++ [mark]) : labelSet.contains mark = true := by
  have hlast : (before ++ label).getLast? = some mark := by rw [h, List.getLast?_concat]
  rw [List.getLast?_append_of_ne_nil _ hl.ne_nil] at hlast
  exact hl.chars mark (List.mem_of_getLast? hlast)

/-- A label at the end of a text lies within its last part, if this starts with another character
and so does the part in front of it end. -/
lemma LabelText.within {label before inside b : List Char} {mark : Char} (hl : LabelText label)
    (h : before ++ label = (inside ++ [mark]) ++ b) (hmark : labelSet.contains mark = false)
    (hb : ∃ c ∈ b.head?, labelSet.contains c = false) :
    ∃ more, more ≠ [] ∧ before = (inside ++ [mark]) ++ more ∧ b = more ++ label := by
  rcases List.append_eq_append_iff.1 h with ⟨more, hinside, hlabel⟩ | ⟨more, hbefore, hrest⟩
  · exfalso
    rcases List.eq_nil_or_concat' more with rfl | ⟨initial, c, rfl⟩
    · obtain ⟨c, hc, hset⟩ := hb
      rw [List.nil_append] at hlabel
      rw [← hlabel] at hc
      rw [hl.chars c (List.mem_of_mem_head? hc)] at hset
      cases hset
    · rw [← List.append_assoc] at hinside
      obtain rfl : mark = c := by simpa using (List.append_inj' hinside rfl).2
      rw [hl.chars mark (by simp [hlabel])] at hmark
      cases hmark
  · refine ⟨more, ?_, hbefore, hrest⟩
    rintro rfl
    obtain ⟨c, hc, hset⟩ := hb
    rw [hrest, List.nil_append] at hc
    rw [hl.chars c (List.mem_of_mem_head? hc)] at hset
    cases hset

/-- Behind a colon or points, spaces do not change that no label ends there. -/
lemma exists_last_pad {mark : Char} {pad : List Char} (hpad : Spaces pad)
    (hmark : labelSet.contains mark = false) (inside : List Char) :
    ∃ initial last, inside ++ mark :: pad = initial ++ [last] ∧ labelSet.contains last = false := by
  rcases List.eq_nil_or_concat' pad with rfl | ⟨initial, c, rfl⟩
  · exact ⟨inside, mark, rfl, hmark⟩
  · refine ⟨inside ++ mark :: initial, c, by simp, ?_⟩
    rcases hpad c (by simp) with rfl | rfl <;> rfl

/-- An object that is spelled in front of others does not end with a line that is a label. -/
lemma Spells.not_label {o before label : List Char} {v : Node} (h : Spells True o v)
    (hline : EndsLine before) (hl : LabelText label) : o ≠ before ++ label := by
  induction h using Spells.induction_value generalizing before with
  | simple ha hclosed =>
    rintro rfl
    have hread := accepts_simpleObject.1 ha
    rcases simpleAt_last hread with hwithin | hmark | ⟨inside, mark, hlast, hword⟩
    · exact WithinLine.not_endsLine (fun c hc => hwithin c (by simp [hc])) hline
    · have hends := hclosed trivial (accepts_hereDoc.2 (hereDocAt_of_head hread hmark))
      rw [endsLine_append hl.ne_nil] at hends
      exact hl.withinLine.not_endsLine hends
    · have hset := wordSet_of_letterSet (letterSet_of_labelSet (hl.last hlast))
      rw [hword] at hset
      cases hset
  | @keyValue a pad pad' b k w _ _ _ hpad' hb ih =>
    intro heq
    obtain ⟨inside, mark, hinside, hmark⟩ :=
      exists_last_pad hpad' (show labelSet.contains ':' = false from rfl) (a ++ pad)
    rw [pair_eq_append, hinside] at heq
    obtain ⟨c, hc, hfirst⟩ := hb.head
    obtain ⟨more, hne, rfl, hvalue⟩ :=
      hl.within heq.symm hmark ⟨c, hc, labelSet_of_objectFirst hfirst⟩
    rw [endsLine_append hne] at hline
    exact ih hline hvalue
  | @range a pad point pad' b _ _ _ ha hpad hx hpad' hb =>
    have hpoint : WithinLine point := by
      rcases hx with ⟨-, rfl⟩ | ⟨-, rfl⟩ <;> decide
    have hpoints : WithinLine ['.', '.'] := by decide
    have hwithin := withinLine_append (withinLine_endpointAt (accepts_endpoint.1 ha))
      (withinLine_append hpad.withinLine (withinLine_append hpoints (withinLine_append hpoint
        (withinLine_append hpad'.withinLine (withinLine_endpointAt (accepts_endpoint.1 hb))))))
    intro heq
    rw [List.cons_append, List.singleton_append, heq] at hwithin
    exact WithinLine.not_endsLine (fun c hc => hwithin c (by simp [hc])) hline
  | hash hpairs _ =>
    rintro rfl
    obtain ⟨inside, hshape⟩ := hpairs.shape
    rw [← List.cons_append] at hshape
    exact absurd (hl.last hshape) (by decide)
  | list hitems =>
    rintro rfl
    obtain ⟨inside, hshape⟩ := hitems.shape
    rw [← List.cons_append] at hshape
    exact absurd (hl.last hshape) (by decide)

end Packrat.Program
