import Packrat.Proofs.Program.Keyless
import Packrat.Proofs.Program.LastLine
set_option autoImplicit false
set_option relaxedAutoImplicit false

/-!
# Joining programs

A line break between two programs gives the program of the statements of both, unless the first one
ends with the label of a document and the second one starts with a colon and a word that stands for
a value: then the document becomes the key of that value.

## Main results

* `Packrat.Program.statementsAt_join` — the statements of a program in front of a line feed.
-/

namespace Packrat.Program

variable {t : List Char}

/-- A line feed in front of statements belongs to the blanks. -/
lemma statementsAt_newline (t : List Char) : statementsAt ('\n' :: t) = statementsAt t := by
  have hblanks : Blanks ['\n'] := by decide
  exact statementsAt_blanks hblanks t

/-! ## The last object in front of a line feed -/

/-- The last object of a text is read in front of a line feed as well, unless it is a document that
is given a value. -/
lemma expressionAt_last {o : List Char} {v : Node} (h : Spells False o v)
    (hkey : EndsInLabel o → Keyless t) :
    ∃ rest, expressionAt (o ++ '\n' :: t) = some (v, rest) ∧
      statementsAt rest = statementsAt t := by
  by_cases hline : EndsLine o
  · obtain ⟨hclosed, hlabel⟩ := h.close hline
    have hends : Ends o ('\n' :: t) := by
      refine ⟨.inr (.inl hline), fun q hq => ?_⟩
      rw [behind] at hq
      split at hq
      · rename_i hlast
        exact hkey (hlabel hlast.1) q hq
      · cases hq
    have hread := objectAt_append (hclosed.weaken) hends
    obtain ⟨b, hb, hline'⟩ := exists_behind o ('\n' :: t)
    have hassoc : o ++ '\n' :: t = (o ++ b) ++ behind o ('\n' :: t) := by
      rw [List.append_assoc, ← hb]
    rw [hassoc] at hread
    refine ⟨behind o ('\n' :: t), ?_, ?_⟩
    · rw [hassoc]
      exact expressionAt_of_endsLine hread (hline'.2 hline)
    · rw [statementsAt_behind, statementsAt_newline]
  · rcases h.newline hline with hclosed | ⟨hclosed, hlabel⟩
    · have hpad : Spaces [] := by simp [Spaces]
      exact ⟨t, expressionAt_pad hclosed hline hpad (.inr (.inr rfl)) t, rfl⟩
    · have hline' : EndsLine (o ++ ['\n']) := (endsLine_append (by simp)).2 (by decide)
      have hbehind : behind (o ++ ['\n']) t = t := by
        refine if_neg fun hlast => ?_
        rw [List.getLast?_concat] at hlast
        exact absurd hlast.1 (by decide)
      have hends : Ends (o ++ ['\n']) t := by
        refine ⟨.inr (.inl hline'), fun q hq => hkey hlabel q ?_⟩
        rwa [hbehind] at hq
      have hread := objectAt_append hclosed.weaken hends
      rw [hbehind] at hread
      refine ⟨t, ?_, rfl⟩
      rw [List.append_cons]
      exact expressionAt_of_endsLine hread hline'

/-! ## Other objects in front of a line feed -/

/-- What ends an expression ends it in front of a line feed as well. -/
lemma terminated?_append {mark : Char} {q rest : List Char}
    (h : terminated? (mark :: q) = some rest) (t : List Char) :
    (mark = ';' ∨ mark = '#' ∨ endsLine mark = true) ∧
      ∃ rest', terminated? (mark :: (q ++ '\n' :: t)) = some rest' ∧
        statementsAt rest' = statementsAt (rest ++ '\n' :: t) := by
  rcases Option.or_eq_some_iff.1 h with hmark | ⟨-, hothers⟩
  · obtain ⟨c, hc, hcons⟩ := dropChar?_eq_some.1 hmark
    obtain ⟨rfl, rfl⟩ := List.cons.inj hcons
    rw [eq_of_beq hc]
    exact ⟨.inl rfl, _, rfl, rfl⟩
  · rcases Option.or_eq_some_iff.1 hothers with hbreak | ⟨-, hcomment⟩
    · obtain ⟨b, hb, hcons, -⟩ := dropBreak?_eq_some.1 hbreak
      obtain ⟨c, hc, hline⟩ := hb.head rest
      rw [← hcons] at hc
      obtain rfl : mark = c := Option.some.inj hc
      refine ⟨.inr (.inr hline), behind b (rest ++ '\n' :: t), ?_, statementsAt_behind _ _⟩
      rw [← List.cons_append, hcons, List.append_assoc, terminated?_break hb]
    · split at hcomment
      · rename_i hhead
        cases hcomment
        obtain rfl : mark = '#' := by simpa using hhead
        exact ⟨.inr (.inl rfl), _, rfl, rfl⟩
      · cases hcomment

/-- An object with something behind it is read in front of a line feed as well. -/
lemma expressionAt_middle {o left rest : List Char} {v : Node} (hfound : Found o left v)
    (hne : left ≠ []) (hobject : objectAt (o ++ left) = some (v, left))
    (h : expressionAt (o ++ left) = some (v, rest)) (hrest : (statementsAt rest).2 = [])
    (t : List Char) :
    ∃ rest', expressionAt (o ++ (left ++ '\n' :: t)) = some (v, rest') ∧
      statementsAt rest' = statementsAt (rest ++ '\n' :: t) := by
  have hspells := hfound.spells
  rw [eq_true hne] at hspells
  by_cases hline : EndsLine o
  · rw [expressionAt_of_endsLine hobject hline, Option.some.injEq, Prod.mk.injEq] at h
    obtain ⟨-, rfl⟩ := h
    have hbehind : behind o (left ++ '\n' :: t) = left ++ '\n' :: t :=
      (behind_append hne _).2 hfound.behind
    have hkeyless : Keyless left := hfound.key hline
    have hends : Ends o (left ++ '\n' :: t) := by
      refine ⟨.inr (.inl hline), fun q hq => ?_⟩
      rw [hbehind] at hq
      exact hkeyless.append hrest t q hq
    have hread := objectAt_append hspells.weaken hends
    rw [hbehind] at hread
    exact ⟨_, expressionAt_of_endsLine hread hline, rfl⟩
  · rw [expressionAt_of_object hobject hline] at h
    obtain ⟨_, hend, heq⟩ := Option.map_eq_some_iff.1 h
    cases heq
    obtain ⟨pad, hpad, hsplit⟩ := exists_spaces left
    cases hleft : left.dropWhile isSpace with
    | nil =>
      rw [hleft] at hend hsplit
      cases hend
      rw [List.append_nil] at hsplit
      refine ⟨t, ?_, (statementsAt_newline t).symm⟩
      rw [hsplit]
      exact expressionAt_pad hspells hline hpad (.inr (.inr rfl)) t
    | cons mark q =>
      rw [hleft] at hend hsplit
      obtain ⟨hmark, rest', hend', hsame⟩ := terminated?_append hend t
      refine ⟨rest', ?_, hsame⟩
      rw [hsplit, List.append_assoc, List.cons_append, expressionAt_pad hspells hline hpad hmark,
        hend']
      rfl

/-! ## Programs in front of a line feed -/

/-- The statements behind the first one. -/
lemma exists_others {cs rest : List Char} {a : List Node} {v : Node}
    (hfirst : statementsAt cs = (v :: (statementsAt rest).1, (statementsAt rest).2))
    (h : statementsAt cs = (a, [])) :
    ∃ others, a = v :: others ∧ statementsAt rest = (others, []) := by
  rw [hfirst, Prod.mk.injEq] at h
  exact ⟨_, h.1.symm, Prod.ext rfl h.2⟩

/-- A program in front of a line feed and another text: its statements come first, and then those of
the other text.

**Proof sketch.** Induction on the characters of the program, from piece to piece. Only at its last
piece the line feed makes a difference: it ends a comment or an expression, is the closing line
break of a document or goes with a carriage return. -/
lemma statementsAt_join {cs : List Char} {a : List Node} (h : statementsAt cs = (a, []))
    (hkey : EndsInLabel cs → Keyless t) :
    statementsAt (cs ++ '\n' :: t) = (a ++ (statementsAt t).1, (statementsAt t).2) := by
  by_cases hne : cs = []
  · subst hne
    rw [statementsAt_nil, Prod.mk.injEq] at h
    rw [← h.1, List.nil_append, statementsAt_newline]
    rfl
  rcases exists_piece hne (congrArg Prod.snd h) with ⟨c, more, rfl, hblank⟩ | ⟨v, rest, hcomment⟩ |
    ⟨v, rest, hexpression⟩
  · have hblanks : Blanks [c] := by simpa [Blanks] using isBlank_iff.1 hblank
    have hskip : ∀ r, statementsAt (c :: r) = statementsAt r := statementsAt_blanks hblanks
    rw [hskip] at h
    rw [List.cons_append, hskip]
    exact statementsAt_join h fun hlabel => hkey (hlabel.prepend [c])
  · have hlt := advances_commentAt.length_lt hcomment
    obtain ⟨others, rfl, hothers⟩ := exists_others (statementsAt_comment hcomment) h
    obtain ⟨text, htext, rfl, ⟨rfl, rfl⟩ | ⟨b, hb, rfl, -⟩⟩ := commentAt_eq_some.1 hcomment
    · rw [statementsAt_nil, Prod.mk.injEq] at hothers
      have hread := commentAt_append htext .lf t
      rw [← hothers.1, List.cons_append]
      exact (statementsAt_comment hread).trans (by rw [statementsAt_behind]; rfl)
    · have hread := commentAt_append htext hb (rest ++ '\n' :: t)
      have hassoc : '#' :: (text ++ (b ++ rest)) = ('#' :: text ++ b) ++ rest := by simp
      have hrest := statementsAt_join hothers fun hlabel => hkey (by
        rw [hassoc]
        exact hlabel.prepend _)
      have hassoc' : '#' :: (text ++ (b ++ rest)) ++ '\n' :: t =
          '#' :: (text ++ (b ++ (rest ++ '\n' :: t))) := by simp
      rw [hassoc', statementsAt_comment hread, statementsAt_behind, hrest]
      rfl
  · have hlt := advances_expressionAt.length_lt hexpression
    obtain ⟨others, rfl, hothers⟩ := exists_others (statementsAt_expression hexpression) h
    obtain ⟨left, hobject, hsuffix⟩ := objectAt_of_expressionAt hexpression
    obtain ⟨o, rfl, hfound⟩ := exists_found hobject
    by_cases hleft : left = []
    · subst hleft
      obtain rfl := List.suffix_nil.1 hsuffix
      rw [List.append_nil] at hobject hkey ⊢
      obtain ⟨rest', hread, hsame⟩ := expressionAt_last (spells_iff.2 hobject) hkey
      rw [statementsAt_nil, Prod.mk.injEq] at hothers
      rw [statementsAt_expression hread, hsame, ← hothers.1]
      rfl
    · obtain ⟨rest', hread, hsame⟩ := expressionAt_middle hfound hleft hobject hexpression
        (congrArg Prod.snd hothers) t
      obtain ⟨taken, -, htaken⟩ := advances_expressionAt _ _ _ hexpression
      have hrest := statementsAt_join hothers fun hlabel => hkey (by
        rw [htaken]
        exact hlabel.prepend _)
      rw [List.append_assoc, statementsAt_expression hread, hsame, hrest]
      rfl
termination_by cs.length

end Packrat.Program
