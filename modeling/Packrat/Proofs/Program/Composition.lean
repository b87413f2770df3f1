import Packrat.Proofs.Program.Joining
set_option autoImplicit false
set_option relaxedAutoImplicit false

/-!
# When programs compose

Two programs with a line break between them are the program of the statements of both, just if no
document becomes a key: the label at the end of the first program has the line break for its own,
and the document takes the word behind the colon for its value.

## Main results

* `Packrat.Program.EndsInLabel.of_expression` — a label at the end of a program ends its last
  object.
* `Packrat.Program.statementsAt_join_ne` — where a document becomes a key, the statements are
  others.
* `Packrat.Program.parse_join_iff` — when programs compose.
-/

namespace Packrat.Program

variable {t : List Char}

/-! ## Documents that become keys -/

/-- A document that is given a value is the key of it, and so the object that it ends is another
one. -/
lemma objectAt_key {o r : List Char} {v : Node} (h : Spells True o v) (hline : EndsLine o)
    (hkey : ¬ Keyless (behind o r)) : ∃ w left, objectAt (o ++ r) = some (w, left) ∧ w ≠ v := by
  induction h, hline using Spells.induction_endsLine with
  | @document o v hread _ hline =>
    have hsame := simpleAt_of_hereDocAt hread
    have hsimple := cuts_simpleAt.before o v r hsame (.inr (.inl hline))
    simp only [Keyless, not_forall] at hkey
    obtain ⟨q, hq, hvalue⟩ := hkey
    obtain ⟨⟨w, left⟩, hobject⟩ := Option.ne_none_iff_exists'.1 hvalue
    have hcolon : dropChar? (· == ':') (':' :: q) = some q := rfl
    have hpair : keyValueWith objectAt (o ++ r) = some (.keyValue v w, left) := by
      simp only [keyValueWith, hsimple, hq, hcolon, hobject, bind, Option.bind_some]
    refine ⟨.keyValue v w, left, ?_, fun heq => ?_⟩
    · rw [objectAt_eq, objectWith, compositeWith, hpair]
      rfl
    · rw [← heq] at hsame
      exact simpleAt_ne_keyValue hsame
  | @value a pad pad' b k w ha hclosed hpad hpad' hb _ ih =>
    rw [pair_eq_append, behind_append_left hb.ne_nil] at hkey
    obtain ⟨u, left, hread, hne⟩ := ih hkey
    refine ⟨.keyValue k u, left, ?_, fun heq => hne (Node.keyValue.inj heq).2⟩
    rw [pair_append, objectAt_eq, objectWith, compositeWith,
      keyValueWith_parts ha hclosed hpad hpad' (hb.head_append r), hread]
    rfl

/-! ## Labels at the end of a program -/

/-- No program starts with a character of a label. -/
lemma labelSet_of_statements {c : Char} {cs : List Char} (h : (statementsAt (c :: cs)).2 = []) :
    labelSet.contains c = false := by
  rcases exists_piece (List.cons_ne_nil _ _) h with ⟨d, more, hcons, hblank⟩ | ⟨v, rest, hcomment⟩ |
    ⟨v, rest, hexpression⟩
  · obtain ⟨rfl, -⟩ := List.cons.inj hcons
    rcases isBlank_iff.1 hblank with rfl | rfl | rfl | rfl <;> rfl
  · by_contra hlabel
    refine Option.some_ne_none _ (hcomment.symm.trans (commentAt_of_head ?_))
    rintro ⟨⟩
    exact hlabel rfl
  · obtain ⟨left, hobject, -⟩ := objectAt_of_expressionAt hexpression
    exact labelSet_of_objectFirst (Reader.Starts.head starts_objectAt hobject rfl)

/-- A label at the end of a text stands in a program at the end of the text, or right in front of
one that is a carriage return. -/
lemma EndsInLabel.of_append {p rest : List Char} (h : EndsInLabel (p ++ rest)) (hne : rest ≠ [])
    (hrest : (statementsAt rest).2 = []) :
    EndsInLabel rest ∨ ∃ before label, EndsLine before ∧ LabelText label ∧ p = before ++ label := by
  have hfirst : ∀ {label more}, LabelText label → rest ≠ label ++ more := by
    rintro label more hl rfl
    obtain ⟨c, label, rfl⟩ := List.exists_cons_of_ne_nil hl.ne_nil
    have hnot := labelSet_of_statements hrest
    rw [hl.chars c (by simp)] at hnot
    cases hnot
  obtain ⟨before, label, hline, hl, hcs⟩ := h
  obtain ⟨close, hclose, hcs⟩ : ∃ close, (close = [] ∨ close = ['\r']) ∧
      p ++ rest = before ++ (label ++ close) := by
    rcases hcs with hcs | hcs
    · exact ⟨[], .inl rfl, by rw [hcs, List.append_nil]⟩
    · exact ⟨['\r'], .inr rfl, hcs⟩
  rcases List.append_eq_append_iff.1 hcs with ⟨more, rfl, hmore⟩ | ⟨more, rfl, hmore⟩
  · have hne' : more ≠ [] := by
      rintro rfl
      exact hfirst hl hmore
    rw [endsLine_append hne'] at hline
    refine .inl ⟨more, label, hline, hl, ?_⟩
    rcases hclose with rfl | rfl
    · exact .inl (by rw [hmore, List.append_nil])
    · exact .inr hmore
  · rcases List.append_eq_append_iff.1 hmore with ⟨k, rfl, hk⟩ | ⟨k, rfl, hk⟩
    · have hnil : k = [] := by
        rcases hclose with rfl | rfl
        · exact (List.append_eq_nil_iff.1 hk.symm).1
        · cases k with
          | nil => rfl
          | cons c k => exact absurd (List.append_eq_nil_iff.1 (List.cons.inj hk).2.symm).2 hne
      exact .inr ⟨before, label, hline, hl, by rw [hnil, List.append_nil]⟩
    · cases k with
      | nil => exact .inr ⟨before, more, hline, by simpa using hl, rfl⟩
      | cons c k => exact absurd hk (hfirst ⟨by simp, fun d hd => hl.chars d (by simp [hd])⟩)

/-- There is no label of its own line at the end of a first line. -/
lemma not_endsInLabel_of_withinLine {a b : List Char} (ha : WithinLine a) (hb : b = [] ∨ Break b) :
    ¬ EndsInLabel (a ++ b) := by
  rintro ⟨before, label, hline, hl, hcs⟩
  obtain ⟨close, hcs⟩ : ∃ close, before ++ (label ++ close) = a ++ b := by
    rcases hcs with hcs | hcs
    · exact ⟨[], by rw [hcs, List.append_nil]⟩
    · exact ⟨['\r'], hcs.symm⟩
  rcases List.append_eq_append_iff.1 hcs with ⟨more, rfl, -⟩ | ⟨more, rfl, hmore⟩
  · exact WithinLine.not_endsLine (fun c hc => ha c (by simp [hc])) hline
  · obtain ⟨c, hc⟩ := List.exists_mem_of_ne_nil label hl.ne_nil
    have hmem : c ∈ b := by simp [hmore, hc]
    rcases hb with rfl | hb
    · cases hmem
    · have hends := hb.all_endsLine c hmem
      rw [hl.withinLine c hc] at hends
      cases hends

/-- Behind an object that does not end its line there are spaces and what ends the expression. -/
lemma exists_ending {o left rest : List Char} {v : Node}
    (hobject : objectAt (o ++ left) = some (v, left))
    (hline : ¬ EndsLine o) (h : expressionAt (o ++ left) = some (v, rest)) :
    ∃ pad e, Spaces pad ∧ left = pad ++ (e ++ rest) ∧ (e = [] ∨ e = [';'] ∨ Break e) := by
  rw [expressionAt_of_object hobject hline] at h
  obtain ⟨_, hend, heq⟩ := Option.map_eq_some_iff.1 h
  cases heq
  obtain ⟨pad, hpad, hsplit⟩ := exists_spaces left
  refine ⟨pad, ?_⟩
  rcases Option.or_eq_some_iff.1 hend with hmark | ⟨-, hothers⟩
  · obtain ⟨c, hc, hcons⟩ := dropChar?_eq_some.1 hmark
    rw [hcons, eq_of_beq hc] at hsplit
    exact ⟨[';'], hpad, hsplit, .inr (.inl rfl)⟩
  · rcases Option.or_eq_some_iff.1 hothers with hbreak | ⟨-, hcomment⟩
    · obtain ⟨b, hb, hcons, -⟩ := dropBreak?_eq_some.1 hbreak
      rw [hcons] at hsplit
      exact ⟨b, hpad, hsplit, .inr (.inr hb)⟩
    · split at hcomment
      · cases hcomment
        exact ⟨[], hpad, hsplit, .inl rfl⟩
      · cases hcomment

/-- An object with spaces behind it does not end with a line that is a label. -/
lemma Spells.not_label_pad {o pad before label : List Char} {v : Node} (h : Spells True o v)
    (hpad : Spaces pad) (hline : EndsLine before) (hl : LabelText label) :
    o ++ pad ≠ before ++ label := by
  intro heq
  rcases List.eq_nil_or_concat' pad with rfl | ⟨initial, c, rfl⟩
  · rw [List.append_nil] at heq
    exact h.not_label hline hl heq
  · rw [← List.append_assoc] at heq
    have hset := hl.last heq.symm
    rcases hpad c (by simp) with rfl | rfl <;> exact absurd hset (by decide)

/-- Neither does it with what ends the expression behind it: a semicolon or a line break is no part
of a label. -/
lemma Spells.not_label_ending {o pad e before label : List Char} {v : Node} (h : Spells True o v)
    (hpad : Spaces pad) (he : e = [] ∨ e = [';'] ∨ Break e) (hline : EndsLine before)
    (hl : LabelText label) : o ++ (pad ++ e) ≠ before ++ label := by
  intro heq
  rcases he with rfl | rfl | hb
  · rw [List.append_nil] at heq
    exact h.not_label_pad hpad hline hl heq
  · rw [← List.append_assoc] at heq
    exact absurd (hl.last heq.symm) (by decide)
  · have hends : EndsLine (o ++ (pad ++ e)) := by
      rw [← List.append_assoc, endsLine_append hb.ne_nil]
      exact hb.endsLine
    rw [heq, endsLine_append hl.ne_nil] at hends
    exact hl.withinLine.not_endsLine hends

/-- A lone carriage return behind it does not make its last line a label, either. -/
lemma Spells.not_endsInLabel_ending {o pad e : List Char} {v : Node} (h : Spells True o v)
    (hpad : Spaces pad) (he : e = [] ∨ e = [';'] ∨ Break e) (hne : pad ++ e ≠ []) :
    ¬ EndsInLabel (o ++ (pad ++ e)) := by
  rintro ⟨before, label, hline, hl, heq | heq⟩
  · exact h.not_label_ending hpad he hline hl heq
  rw [← List.append_assoc, ← List.append_assoc] at heq
  rcases he with rfl | rfl | hb
  · rw [List.append_nil] at heq hne
    obtain ⟨initial, c, rfl⟩ := (List.eq_nil_or_concat' pad).resolve_left hne
    rw [← List.append_assoc] at heq
    obtain rfl : c = '\r' := by simpa using (List.append_inj' heq rfl).2
    rcases hpad '\r' (by simp) with hc | hc <;> cases hc
  · have hmark := (List.append_inj' heq rfl).2
    simp at hmark
  · cases hb with
    | crlf =>
      have hlast := congrArg List.getLast? heq
      simp at hlast
    | lf =>
      have hmark := (List.append_inj' heq rfl).2
      simp at hmark
    | cr => exact h.not_label_pad hpad hline hl (List.append_inj' heq rfl).1

/-- A text that ends with a label has it behind a blank character, too. -/
lemma EndsInLabel.of_blank {c : Char} {rest : List Char} (hc : isBlank c = true)
    (hrest : (statementsAt rest).2 = []) (hlabel : EndsInLabel (c :: rest)) : EndsInLabel rest := by
  have hne : rest ≠ [] := by
    rintro rfl
    have hkind : WithinLine [c] ∨ Break [c] := by
      rcases isBlank_iff.1 hc with rfl | rfl | rfl | rfl
      · exact .inl (by decide)
      · exact .inl (by decide)
      · exact .inr .cr
      · exact .inr .lf
    rcases hkind with hwithin | hbreak
    · exact not_endsInLabel_of_withinLine (b := []) hwithin (.inl rfl) hlabel
    · exact not_endsInLabel_of_withinLine (a := []) nofun (.inr hbreak) hlabel
  refine (EndsInLabel.of_append (p := [c]) hlabel hne hrest).resolve_right ?_
  rintro ⟨before, label, hline, hl, heq⟩
  have hbefore : before ≠ [] := by
    rintro rfl
    exact absurd hline (by decide)
  have hlen := congrArg List.length heq
  have hpos := List.length_pos_iff.2 hbefore
  have hpos' := List.length_pos_iff.2 hl.ne_nil
  rw [List.length_append, List.length_singleton] at hlen
  omega

/-- A text that ends with a label has it behind a comment, too. -/
lemma EndsInLabel.of_comment {text b rest : List Char} (htext : WithinLine text) (hb : Break b)
    (hrest : (statementsAt rest).2 = []) (hlabel : EndsInLabel ('#' :: (text ++ (b ++ rest)))) :
    EndsInLabel rest := by
  have hwithin : WithinLine ('#' :: text) := List.forall_mem_cons.2 ⟨by decide, htext⟩
  have hassoc : '#' :: (text ++ (b ++ rest)) = ('#' :: text ++ b) ++ rest := by simp
  rw [hassoc] at hlabel
  have hne : rest ≠ [] := by
    rintro rfl
    rw [List.append_nil] at hlabel
    exact not_endsInLabel_of_withinLine hwithin (.inr hb) hlabel
  refine (hlabel.of_append hne hrest).resolve_right ?_
  rintro ⟨before, label, -, hl, heq⟩
  have hends : EndsLine ('#' :: text ++ b) := (endsLine_append hb.ne_nil).2 hb.endsLine
  rw [heq, endsLine_append hl.ne_nil] at hends
  exact hl.withinLine.not_endsLine hends

/-- A text that ends with a label has it at the end of its last object, where something is left
behind the first one. -/
lemma EndsInLabel.of_expression {o left rest : List Char} {v : Node} (hfound : Found o left v)
    (hne : left ≠ []) (hobject : objectAt (o ++ left) = some (v, left))
    (h : expressionAt (o ++ left) = some (v, rest)) (hrest : (statementsAt rest).2 = [])
    (hlabel : EndsInLabel (o ++ left)) : EndsInLabel rest := by
  have hspells := hfound.spells
  rw [eq_true hne] at hspells
  by_cases hline : EndsLine o
  · rw [expressionAt_of_endsLine hobject hline, Option.some.injEq, Prod.mk.injEq] at h
    obtain ⟨-, rfl⟩ := h
    refine (hlabel.of_append hne hrest).resolve_right ?_
    rintro ⟨before, label, -, hl, rfl⟩
    rw [endsLine_append hl.ne_nil] at hline
    exact hl.withinLine.not_endsLine hline
  · obtain ⟨pad, e, hpad, rfl, he⟩ := exists_ending hobject hline h
    have hassoc : o ++ (pad ++ (e ++ rest)) = (o ++ (pad ++ e)) ++ rest := by simp
    by_cases hnil : rest = []
    · subst hnil
      rw [List.append_nil] at hlabel hne
      exact absurd hlabel (hspells.not_endsInLabel_ending hpad he hne)
    · rw [hassoc] at hlabel
      refine (hlabel.of_append hnil hrest).resolve_right ?_
      rintro ⟨before, label, hbefore, hl, heq⟩
      exact hspells.not_label_ending hpad he hbefore hl heq

/-! ## Programs in front of a value -/

/-- The first statement is the object that is read first. -/
lemma exists_others_of_objectAt {cs left : List Char} {w : Node} {nodes : List Node}
    (hobject : objectAt cs = some (w, left)) (h : statementsAt cs = (nodes, [])) :
    ∃ others, nodes = w :: others := by
  have hne : cs ≠ [] := by
    rintro rfl
    have hlt := advances_objectAt.length_lt hobject
    simp at hlt
  rcases exists_piece hne (congrArg Prod.snd h) with ⟨c, more, rfl, hblank⟩ | ⟨v, rest, hcomment⟩ |
    ⟨v, rest, hexpression⟩
  · rw [isBlank_of_objectFirst (Reader.Starts.head starts_objectAt hobject rfl)] at hblank
    cases hblank
  · refine absurd (hcomment.symm.trans (commentAt_of_head fun hmark => ?_)) (Option.some_ne_none _)
    exact absurd (Reader.Starts.head starts_objectAt hobject hmark) (by decide)
  · obtain ⟨left', hobject', -⟩ := objectAt_of_expressionAt hexpression
    rw [hobject, Option.some.injEq, Prod.mk.injEq] at hobject'
    obtain ⟨rfl, -⟩ := hobject'
    obtain ⟨others, hothers, -⟩ := exists_others (statementsAt_expression hexpression) h
    exact ⟨others, hothers⟩

/-- An object that ends with a label takes the value behind a line feed, and is another one then. -/
lemma objectAt_newline_key {o : List Char} {v : Node} (h : Spells False o v)
    (hlabel : EndsInLabel o) (hkey : ¬ Keyless t) :
    ∃ w left, objectAt (o ++ '\n' :: t) = some (w, left) ∧ w ≠ v := by
  obtain ⟨before, label, hbefore, hl, hcs⟩ := hlabel
  by_cases hline : EndsLine o
  · obtain ⟨hclosed, -⟩ := h.close hline
    have hlast : o.getLast? = some '\r' := by
      rcases hcs with rfl | rfl
      · rw [endsLine_append hl.ne_nil] at hline
        exact absurd hline hl.withinLine.not_endsLine
      · rw [← List.append_assoc, List.getLast?_concat]
    refine objectAt_key hclosed hline ?_
    rw [behind, if_pos ⟨hlast, rfl⟩]
    exact hkey
  · have hwhole : o = before ++ label := hcs.resolve_right fun heq => hline (by
      rw [heq, ← List.append_assoc, endsLine_append (List.cons_ne_nil _ _)]
      decide)
    rcases h.newline hline with hclosed | ⟨hclosed, -⟩
    · exact absurd hwhole (hclosed.not_label hbefore hl)
    · have hline' : EndsLine (o ++ ['\n']) := (endsLine_append (by simp)).2 (by decide)
      have hbehind : behind (o ++ ['\n']) t = t := by
        refine if_neg fun hlast => ?_
        rw [List.getLast?_concat] at hlast
        exact absurd hlast.1 (by decide)
      rw [List.append_cons]
      refine objectAt_key hclosed hline' ?_
      rwa [hbehind]

/-- Where a program ends with a label and a value comes behind a line feed, the statements are
others.

**Proof sketch.** Induction on the characters of the program, from piece to piece. The label stands
in what is left behind each piece but the last one, which is an object; that becomes a key. -/
lemma statementsAt_join_ne {cs : List Char} {a : List Node} (h : statementsAt cs = (a, []))
    (hlabel : EndsInLabel cs) (hkey : ¬ Keyless t) (b : List Node) :
    statementsAt (cs ++ '\n' :: t) ≠ (a ++ b, []) := by
  have hne : cs ≠ [] := by
    rintro rfl
    exact not_endsInLabel_of_withinLine (a := []) nofun (.inl rfl) hlabel
  rcases exists_piece hne (congrArg Prod.snd h) with ⟨c, more, rfl, hblank⟩ | ⟨v, rest, hcomment⟩ |
    ⟨v, rest, hexpression⟩
  · have hblanks : Blanks [c] := by simpa [Blanks] using isBlank_iff.1 hblank
    have hskip : ∀ r, statementsAt (c :: r) = statementsAt r := statementsAt_blanks hblanks
    rw [hskip] at h
    rw [List.cons_append, hskip]
    exact statementsAt_join_ne h (hlabel.of_blank hblank (congrArg Prod.snd h)) hkey b
  · have hlt := advances_commentAt.length_lt hcomment
    obtain ⟨others, rfl, hothers⟩ := exists_others (statementsAt_comment hcomment) h
    obtain ⟨text, htext, rfl, ⟨rfl, rfl⟩ | ⟨b', hb, rfl, -⟩⟩ := commentAt_eq_some.1 hcomment
    · have hwithin : WithinLine ('#' :: text) := List.forall_mem_cons.2 ⟨by decide, htext⟩
      rw [← List.append_nil ('#' :: text)] at hlabel
      exact absurd hlabel (not_endsInLabel_of_withinLine hwithin (.inl rfl))
    · have hlabel' := hlabel.of_comment htext hb (congrArg Prod.snd hothers)
      have hread := commentAt_append htext hb (rest ++ '\n' :: t)
      have hassoc' : '#' :: (text ++ (b' ++ rest)) ++ '\n' :: t =
          '#' :: (text ++ (b' ++ (rest ++ '\n' :: t))) := by simp
      rw [hassoc', statementsAt_comment hread, statementsAt_behind]
      intro heq
      obtain ⟨hnodes, hleft⟩ := Prod.mk.inj heq
      exact statementsAt_join_ne hothers hlabel' hkey b (Prod.ext (List.cons.inj hnodes).2 hleft)
  · have hlt := advances_expressionAt.length_lt hexpression
    obtain ⟨others, rfl, hothers⟩ := exists_others (statementsAt_expression hexpression) h
    obtain ⟨left, hobject, -⟩ := objectAt_of_expressionAt hexpression
    obtain ⟨o, rfl, hfound⟩ := exists_found hobject
    by_cases hleft : left = []
    · subst hleft
      rw [List.append_nil] at hobject hlabel ⊢
      obtain ⟨w, left', hread, hother⟩ := objectAt_newline_key (spells_iff.2 hobject) hlabel hkey
      intro heq
      obtain ⟨others', hothers'⟩ := exists_others_of_objectAt hread heq
      exact hother (List.cons.inj hothers').1.symm
    · have hlabel' := hlabel.of_expression hfound hleft hobject hexpression
        (congrArg Prod.snd hothers)
      obtain ⟨rest', hread, hsame⟩ := expressionAt_middle hfound hleft hobject hexpression
        (congrArg Prod.snd hothers) t
      rw [List.append_assoc, statementsAt_expression hread, hsame]
      intro heq
      obtain ⟨hnodes, hrest⟩ := Prod.mk.inj heq
      exact statementsAt_join_ne hothers hlabel' hkey b (Prod.ext (List.cons.inj hnodes).2 hrest)
termination_by cs.length

/-! ## Accepted texts -/

/-- Two programs with a line feed between them are the program of the statements of both, if the
limit is not exceeded, unless the first one ends with a label and the second one gives a value. -/
theorem parse_join_iff {settings : Settings} {s t : String} {a b : List Node}
    (hs : grammar.parse settings (.named .program) s = .ok (.object (.program a)))
    (ht : grammar.parse settings (.named .program) t = .ok (.object (.program b)))
    (hdeep : ¬ TooDeep (grammar.parse settings (.named .program) (s ++ "\n" ++ t))) :
    grammar.parse settings (.named .program) (s ++ "\n" ++ t) = .ok (.object (.program (a ++ b))) ↔
      ¬ (EndsInLabel s.toList ∧ GivesValue t.toList) := by
  have hread : ∀ {text : String} {nodes : List Node},
      grammar.parse settings (.named .program) text = .ok (.object (.program nodes)) →
      statementsAt text.toList = (nodes, []) := by
    intro text nodes h
    obtain ⟨_, heq, hnodes⟩ := statementsAt_of_parse h
    cases heq
    exact hnodes
  have hjoin : (s ++ "\n" ++ t).toList = s.toList ++ '\n' :: t.toList := by simp
  have hkeyless := keyless_iff (congrArg Prod.snd (hread ht))
  constructor
  · rintro h ⟨hlabel, hvalue⟩
    refine statementsAt_join_ne (hread hs) hlabel (fun hkey => hkeyless.1 hkey hvalue) b ?_
    rw [← hjoin]
    exact hread h
  · intro h
    refine (parse_program_iff hdeep).2 ⟨_, rfl, ?_⟩
    rw [hjoin, statementsAt_join (hread hs) fun hlabel => hkeyless.2 fun hvalue =>
      h ⟨hlabel, hvalue⟩, hread ht]

/-- A document that is closed at the end of the first program, and a symbol that is no word. -/
theorem parse_join_iff_document :
    grammar.parse {} (.named .program) "<<A\na\nA" = .ok (.object (.program [.string "a\n"])) ∧
      grammar.parse {} (.named .program) ":a" = .ok (.object (.program [.string "a"])) ∧
      ¬ TooDeep (grammar.parse {} (.named .program) ("<<A\na\nA" ++ "\n" ++ ":a")) ∧
      (grammar.parse {} (.named .program) ("<<A\na\nA" ++ "\n" ++ ":a") =
          .ok (.object (.program ([.string "a\n"] ++ [.string "a"]))) ↔
        ¬ (EndsInLabel "<<A\na\nA".toList ∧ GivesValue ":a".toList)) := by
  have hs : Accepts .program "<<A\na\nA".toList (.program [.string "a\n"]) := by decide +kernel
  have ht : Accepts .program ":a".toList (.program [.string "a"]) := by decide +kernel
  have hdeep : ¬ TooDeep (grammar.parse {} (.named .program) ("<<A\na\nA" ++ "\n" ++ ":a")) :=
    not_tooDeep_of_isOk (by decide +kernel)
  rw [Accepts, String.ofList_toList] at hs ht
  exact ⟨hs, ht, hdeep, parse_join_iff hs ht hdeep⟩

/-- A document that ends one program takes a word that starts the next one for its value. -/
theorem not_forall_parse_join :
    ¬ ∀ (settings : Settings) (s t : String) (a b : List Node),
      grammar.parse settings (.named .program) s = .ok (.object (.program a)) →
      grammar.parse settings (.named .program) t = .ok (.object (.program b)) →
      ¬ TooDeep (grammar.parse settings (.named .program) (s ++ "\n" ++ t)) →
      grammar.parse settings (.named .program) (s ++ "\n" ++ t) =
        .ok (.object (.program (a ++ b))) := by
  intro h
  have hs : Accepts .program "<<A\nA".toList (.program [.string ""]) := by decide +kernel
  have ht : Accepts .program ":nil".toList (.program [.string "nil"]) := by decide +kernel
  have hjoin : Accepts .program ("<<A\nA" ++ "\n" ++ ":nil").toList
      (.program [.keyValue (.string "") .nil]) := by decide +kernel
  rw [Accepts, String.ofList_toList] at hs ht hjoin
  have hboth := h {} _ _ _ _ hs ht (not_tooDeep_of_ok hjoin)
  have heq := Node.program.inj (Value.object.inj (Except.ok.inj (hjoin.symm.trans hboth)))
  exact absurd heq (by decide)

end Packrat.Program
