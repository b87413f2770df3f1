import Packrat.Proofs.Program.Reline
import Packrat.Proofs.Program.Steps
set_option autoImplicit false
set_option relaxedAutoImplicit false

/-!
# Kinds of line breaks

A program may be written with any kind of line breaks. With others than line feeds it is accepted as
it is with line feeds, and the tree is the same but for the line breaks in its texts and patterns.

## Main results

* `Packrat.Program.relines_objectAt` — objects in a text with other line breaks.
* `Packrat.Program.statementsAt_reline` — the statements of a text with other line breaks.
* `Packrat.Program.parse_relineText` — programs with other line breaks.
-/

namespace Packrat.Program

variable {b cs rest : List Char} {n : Nat}

/-! ## Objects -/

section

variable {inner element : Reader}

/-- A pair is read with other line breaks as its key and its value are. -/
lemma relines_keyValueWith (hb : Break b) (h : Relines b (Node.reline b) n inner) :
    Relines b (Node.reline b) (n + 1) (keyValueWith inner) := by
  intro cs hlen hcs
  simp only [keyValueWith, relines_simpleAt hb cs hlen hcs]
  cases hkey : simpleAt cs with
  | none => rfl
  | some result =>
    obtain ⟨key, left⟩ := result
    have hlt := cuts_simpleAt.advances.length_lt hkey
    obtain ⟨a, -, rfl⟩ := cuts_simpleAt.advances _ _ _ hkey
    have hleft := not_mem_of_suffix (List.suffix_append a left) hcs
    simp only [bind, Option.map_some, Option.bind_some, dropWhile_reline hb isSpace rfl,
      dropChar?_reline hb (· == ':') rfl rfl]
    cases hcolon : dropChar? (· == ':') (left.dropWhile isSpace) with
    | none => rfl
    | some more =>
      have hsuffix : more.dropWhile isSpace <:+ left := (List.dropWhile_suffix isSpace).trans
        ((dropChar?_suffix hcolon).trans (List.dropWhile_suffix isSpace))
      have hle := hsuffix.length_le
      simp only [Option.map_some, Option.bind_some, dropWhile_reline hb isSpace rfl,
        h _ (by omega) (not_mem_of_suffix hsuffix hleft)]
      cases inner (more.dropWhile isSpace) <;> rfl

/-- The third point of a range is found with other line breaks as well. -/
lemma exclusivityAt_reline (hb : Break b) (cs : List Char) :
    exclusivityAt (reline b cs) = ((exclusivityAt cs).1, reline b (exclusivityAt cs).2) := by
  fun_cases exclusivityAt cs with
  | case1 cs => rfl
  | case2 cs hpoint =>
    cases cs with
    | nil => rfl
    | cons c cs =>
      by_cases hc : c = '\n'
      · subst hc
        cases hb <;> rfl
      · rw [reline_cons hc, exclusivityAt]
        rintro _ ⟨⟩
        exact hpoint cs rfl

/-- What is behind the points of a range is the end of what is behind two of them. -/
lemma exclusivityAt_suffix (cs : List Char) : (exclusivityAt cs).2 <:+ cs := by
  fun_cases exclusivityAt cs with
  | case1 cs => exact List.suffix_cons '.' cs
  | case2 => exact List.suffix_rfl

/-- A range is read with other line breaks as it is. -/
lemma relines_rangeAt (hb : Break b) : Relines b (Node.reline b) n rangeAt := by
  intro cs hlen hcs
  simp only [rangeAt, relines_endpointAt hb cs hlen hcs]
  cases hstart : endpointAt cs with
  | none => rfl
  | some result =>
    obtain ⟨start, left⟩ := result
    obtain ⟨a, -, rfl⟩ := cuts_endpointAt.advances _ _ _ hstart
    have hleft := not_mem_of_suffix (List.suffix_append a left) hcs
    have hpoints : WithinLine ['.', '.'] := by decide
    simp only [bind, Option.map_some, Option.bind_some, dropWhile_reline hb isSpace rfl,
      dropPrefix?_reline hb hpoints]
    cases hmarks : (left.dropWhile isSpace).dropPrefix? ['.', '.'] with
    | none => rfl
    | some more =>
      have hsuffix : (exclusivityAt more).2.dropWhile isSpace <:+ left :=
        ((List.dropWhile_suffix isSpace).trans (exclusivityAt_suffix more)).trans
          ((dropPrefix?_suffix hmarks).trans (List.dropWhile_suffix isSpace))
      simp only [Option.map_some, Option.bind_some, exclusivityAt_reline hb,
        dropWhile_reline hb isSpace rfl,
        relines_endpointAt hb _ (Nat.le_refl _) (not_mem_of_suffix hsuffix hleft)]
      cases endpointAt ((exclusivityAt more).2.dropWhile isSpace) <;> rfl

/-- A comma and an element are read with other line breaks as the element is. -/
lemma relines_commaThen (hb : Break b) (h : Relines b (Node.reline b) n element) :
    Relines b (Node.reline b) n (commaThen element) := by
  intro cs hlen hcs
  simp only [commaThen, dropWhile_reline hb isBlank rfl, dropChar?_reline hb (· == ',') rfl rfl]
  cases hcomma : dropChar? (· == ',') (cs.dropWhile isBlank) with
  | none => rfl
  | some more =>
    have hsuffix : more.dropWhile isBlank <:+ cs := (List.dropWhile_suffix isBlank).trans
      ((dropChar?_suffix hcomma).trans (List.dropWhile_suffix isBlank))
    simp only [bind, Option.map_some, Option.bind_some, dropWhile_reline hb isBlank rfl,
      h _ (hsuffix.length_le.trans hlen) (not_mem_of_suffix hsuffix hcs)]

/-- A row of elements is read with other line breaks as each of them is. -/
lemma elementsWith_reline (hb : Break b) (ha : Advances element)
    (h : Relines b (Node.reline b) n element) (hlen : cs.length ≤ n) (hcs : '\r' ∉ cs) :
    elementsWith element (reline b cs) =
      ((elementsWith element cs).1.map (Node.reline b), reline b (elementsWith element cs).2) := by
  rw [elementsWith, elementsWith, h cs hlen hcs]
  cases hread : element cs with
  | none => rfl
  | some result =>
    obtain ⟨v, rest⟩ := result
    have hlt := ha.length_lt hread
    obtain ⟨a, -, rfl⟩ := ha _ _ _ hread
    have hrest := many_reline (advances_commaThen ha) (relines_commaThen hb h) (hlt.le.trans hlen)
      (not_mem_of_suffix (List.suffix_append a rest) hcs)
    simp only [Option.map_some, hrest, List.map_cons]

/-- What stands between marks is read with other line breaks as its elements are. -/
lemma relines_delimitedWith (hb : Break b) (ha : Advances element)
    (h : Relines b (Node.reline b) n element) (opening closing : Char)
    (hopening : endsLine opening = false) (hclosing : endsLine closing = false) :
    Relines b (List.map (Node.reline b)) (n + 1) (delimitedWith opening closing element) := by
  intro cs hlen hcs
  rw [delimitedWith, delimitedWith, dropMark?_reline hb hopening]
  cases hopen : dropChar? (· == opening) cs with
  | none => rfl
  | some inside =>
    have hlt := length_dropChar? hopen
    have hsuffix : inside.dropWhile isBlank <:+ inside := List.dropWhile_suffix isBlank
    have hle := hsuffix.length_le
    have hlen' : (inside.dropWhile isBlank).length ≤ n := by omega
    have helements := elementsWith_reline hb ha h hlen'
      (not_mem_of_suffix (hsuffix.trans (dropChar?_suffix hopen)) hcs)
    simp only [bind, Option.map_some, Option.bind_some, dropWhile_reline hb isBlank rfl, helements,
      dropMark?_reline hb hclosing]
    cases dropChar? (· == closing)
      ((elementsWith element (inside.dropWhile isBlank)).2.dropWhile isBlank) <;> rfl

/-- A hash is read with other line breaks as its pairs are. -/
lemma relines_hashWith (hb : Break b) (ha : Advances inner)
    (h : Relines b (Node.reline b) n inner) :
    Relines b (Node.reline b) (n + 1) (hashWith inner) := by
  intro cs hlen hcs
  have hpair := (relines_keyValueWith hb h).mono (Nat.le_succ n)
  have hread := relines_delimitedWith hb (advances_keyValueWith ha) hpair '\x7b' '\x7d' rfl rfl cs
    hlen hcs
  rw [hashWith, hashWith, hread]
  cases delimitedWith '\x7b' '\x7d' (keyValueWith inner) cs with
  | none => rfl
  | some result => simp [Node.reline, relineAll_eq]

/-- A list is read with other line breaks as its elements are. -/
lemma relines_listWith (hb : Break b) (ha : Advances inner)
    (h : Relines b (Node.reline b) n inner) :
    Relines b (Node.reline b) (n + 1) (listWith inner) := by
  intro cs hlen hcs
  have hread := relines_delimitedWith hb ha h '[' ']' rfl rfl cs hlen hcs
  rw [listWith, listWith, hread]
  cases delimitedWith '[' ']' inner cs with
  | none => rfl
  | some result => simp [Node.reline, relineAll_eq]

/-- An object is read with other line breaks as the objects in it are. -/
lemma relines_objectWith (hb : Break b) (ha : Advances inner)
    (h : Relines b (Node.reline b) n inner) :
    Relines b (Node.reline b) (n + 1) (objectWith inner) :=
  ((relines_keyValueWith hb h).or ((relines_rangeAt hb).or
    ((relines_hashWith hb ha h).or (relines_listWith hb ha h)))).or (relines_simpleAt hb)

end

/-- An object in a text with other line breaks is read as it is in the text.

**Proof sketch.** Induction on the length of the text: objects inside an object are shorter. -/
theorem relines_objectAt (hb : Break b) : ∀ n, Relines b (Node.reline b) n objectAt
  | 0, cs, hlen, _ => by
    obtain rfl := List.length_eq_zero_iff.1 (Nat.le_zero.1 hlen)
    have hnone : objectAt [] = none := Option.eq_none_iff_forall_ne_some.2 fun (_, _) hread =>
      absurd (advances_objectAt.length_lt hread) (Nat.not_lt_zero _)
    rw [reline_nil, hnone]
    rfl
  | n + 1, cs, hlen, hcs => by
    rw [objectAt_eq, objectAt_eq cs]
    exact relines_objectWith hb advances_objectAt (relines_objectAt hb n) cs hlen hcs

/-! ## Statements -/

/-- A text ends a line with other line breaks just if it does so with its own. -/
lemma endsLine_reline (hb : Break b) (a : List Char) : EndsLine (reline b a) ↔ EndsLine a := by
  rcases List.eq_nil_or_concat' a with rfl | ⟨initial, c, rfl⟩
  · rfl
  · rw [reline_append, endsLine_append (List.cons_ne_nil c [])]
    by_cases hc : c = '\n'
    · subst hc
      have hline : EndsLine ['\n'] := by decide
      simp [reline_newline, endsLine_append hb.ne_nil, hb.endsLine, hline]
    · rw [reline_cons hc, reline_nil, endsLine_append (List.cons_ne_nil c [])]

/-- The end of an expression is found with other line breaks as with its own. -/
lemma terminated?_reline (hb : Break b) (hcs : '\r' ∉ cs) :
    terminated? (reline b cs) = (terminated? cs).map (reline b) := by
  have hhead : (reline b cs).head? = some '#' ↔ cs.head? = some '#' := by
    cases cs with
    | nil => rfl
    | cons c cs =>
      by_cases hc : c = '\n'
      · subst hc
        cases hb <;> simp [reline_newline]
      · rw [reline_cons hc, List.head?_cons, List.head?_cons]
  rw [terminated?, terminated?, dropMark?_reline hb rfl, dropBreak?_reline hb hcs]
  simp only [reline_eq_nil hb, hhead]
  cases dropChar? (· == ';') cs with
  | some rest => rfl
  | none =>
    cases dropBreak? cs with
    | some rest => rfl
    | none => split <;> rfl

/-- A comment is read with other line breaks as it is. -/
lemma relines_commentAt (hb : Break b) : Relines b (Node.reline b) n commentAt := by
  intro cs _ hcs
  rw [commentAt, commentAt, dropMark?_reline hb rfl]
  cases hmark : dropChar? (· == '#') cs with
  | none => rfl
  | some text =>
    have htext : WithinLine (text.takeWhile (!endsLine ·)) :=
      withinLine_takeWhile (!endsLine ·) rfl rfl text
    have hsuffix : text.dropWhile (!endsLine ·) <:+ cs :=
      (List.dropWhile_suffix _).trans (dropChar?_suffix hmark)
    simp only [bind, Option.map_some, Option.bind_some, dropWhile_reline hb (!endsLine ·) rfl,
      takeWhile_reline hb (!endsLine ·) rfl, reline_of_withinLine htext,
      dropBreak?_reline hb (not_mem_of_suffix hsuffix hcs)]
    cases dropBreak? (text.dropWhile (!endsLine ·)) <;> rfl

/-- An expression is read with other line breaks as its object is. -/
lemma relines_expressionAt (hb : Break b) : Relines b (Node.reline b) n expressionAt := by
  intro cs hlen hcs
  rw [expressionAt, expressionAt, relines_objectAt hb n cs hlen hcs]
  cases hobject : objectAt cs with
  | none => rfl
  | some result =>
    obtain ⟨v, rest⟩ := result
    obtain ⟨a, -, hcons⟩ := advances_objectAt cs v rest hobject
    have hsuffix : rest <:+ cs := ⟨a, hcons.symm⟩
    have hleft := not_mem_of_suffix ((List.dropWhile_suffix isSpace).trans hsuffix) hcs
    simp only [bind, Option.map_some, Option.bind_some, front_reline hsuffix, endsLine_reline hb,
      dropWhile_reline hb isSpace rfl, terminated?_reline hb hleft]
    split
    · rfl
    · cases terminated? (rest.dropWhile isSpace) <;> rfl

/-- A statement is read with other line breaks as its expression and its comment are. -/
lemma relines_statementAt (hb : Break b) : Relines b (List.map (Node.reline b)) n statementAt := by
  intro cs hlen hcs
  rw [statementAt, statementAt, relines_commentAt hb cs hlen hcs,
    relines_expressionAt hb cs hlen hcs]
  cases hcomment : commentAt cs with
  | some _ => rfl
  | none =>
    cases hexpression : expressionAt cs with
    | none => rfl
    | some result =>
      obtain ⟨v, rest⟩ := result
      obtain ⟨a, -, hcons⟩ := advances_expressionAt cs v rest hexpression
      have hsuffix : rest.dropWhile isSpace <:+ cs :=
        (List.dropWhile_suffix isSpace).trans ⟨a, hcons.symm⟩
      have hnext := relines_commentAt hb (rest.dropWhile isSpace) (Nat.le_refl _)
        (not_mem_of_suffix hsuffix hcs)
      simp only [bind, Option.map_none, Option.map_some, Option.bind_some,
        dropWhile_reline hb isSpace rfl, hnext]
      cases commentAt (rest.dropWhile isSpace) <;> rfl

/-- A step over a statement is taken with other line breaks as the statement is read. -/
lemma relines_statementStep (hb : Break b) :
    Relines b (List.map (Node.reline b)) n statementStep := by
  refine (relines_statementAt hb).or fun cs _ hcs => ?_
  rw [dropBlank?, dropBlank?, dropChar?_reline hb isSpace rfl rfl, dropBreak?_reline hb hcs]
  cases dropChar? isSpace cs with
  | some rest => rfl
  | none => cases dropBreak? cs <;> rfl

/-- The statements of a text with other line breaks are those of the text. -/
theorem statementsAt_reline (hb : Break b) (hcs : '\r' ∉ cs) :
    statementsAt (reline b cs) =
      ((statementsAt cs).1.map (Node.reline b), reline b (statementsAt cs).2) := by
  have hmany := many_reline advances_statementStep (relines_statementStep hb) (Nat.le_refl _) hcs
  rw [statementsAt, statementsAt, hmany, List.map_flatten]

/-! ## Programs -/

/-- A text without carriage returns is accepted with other line breaks just if it is accepted, and
the tree has other line breaks in its texts and patterns then, if no limit is exceeded. -/
theorem parse_relineText {settings settings' : Settings} {text : String} (hb : Break b)
    (hcs : '\r' ∉ text.toList)
    (h : ¬ TooDeep (grammar.parse settings (.named .program) text))
    (h' : ¬ TooDeep (grammar.parse settings' (.named .program) (relineText b text)))
    (result : Value Node) :
    grammar.parse settings' (.named .program) (relineText b text) = .ok result ↔
      ∃ v, grammar.parse settings (.named .program) text = .ok (.object v) ∧
        result = .object (v.reline b) := by
  have htext : (relineText b text).toList = reline b text.toList := String.toList_ofList
  simp only [parse_program_iff h, parse_program_iff h', htext, statementsAt_reline hb hcs,
    Prod.mk.injEq, reline_eq_nil hb]
  have hprogram : ∀ nodes, (Node.program nodes).reline b = .program (nodes.map (Node.reline b)) :=
    fun nodes => by rw [Node.reline, relineAll_eq]
  constructor
  · rintro ⟨_, rfl, rfl, hrest⟩
    exact ⟨_, ⟨_, rfl, Prod.ext rfl hrest⟩, by rw [hprogram]⟩
  · rintro ⟨_, ⟨nodes, hv, hread⟩, rfl⟩
    cases hv
    exact ⟨_, by rw [hprogram], by rw [hread], by rw [hread]⟩

/-- A document and a pattern over two lines, with a carriage return and a line feed for each line
feed. -/
theorem parse_relineText_crlf :
    Break ['\r', '\n'] ∧ '\r' ∉ "<<A\n\nA\n/\n/ # a\n1".toList ∧
      ¬ TooDeep (grammar.parse {} (.named .program) "<<A\n\nA\n/\n/ # a\n1") ∧
      ¬ TooDeep (grammar.parse {} (.named .program)
        (relineText ['\r', '\n'] "<<A\n\nA\n/\n/ # a\n1")) ∧
      ∀ result, grammar.parse {} (.named .program)
          (relineText ['\r', '\n'] "<<A\n\nA\n/\n/ # a\n1") = .ok result ↔
        ∃ v, grammar.parse {} (.named .program) "<<A\n\nA\n/\n/ # a\n1" = .ok (.object v) ∧
          result = .object (v.reline ['\r', '\n']) := by
  have hcs : '\r' ∉ "<<A\n\nA\n/\n/ # a\n1".toList := by decide
  have h : ¬ TooDeep (grammar.parse {} (.named .program) "<<A\n\nA\n/\n/ # a\n1") :=
    not_tooDeep_of_isOk (by decide +kernel)
  have h' : ¬ TooDeep (grammar.parse {} (.named .program)
      (relineText ['\r', '\n'] "<<A\n\nA\n/\n/ # a\n1")) :=
    not_tooDeep_of_isOk (by decide +kernel)
  exact ⟨.crlf, hcs, h, h', parse_relineText .crlf hcs h h'⟩

end Packrat.Program
