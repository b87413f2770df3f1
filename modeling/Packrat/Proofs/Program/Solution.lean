import Packrat.Proofs.Program.Meaning
set_option autoImplicit false
set_option relaxedAutoImplicit false

/-!
# The readers solve the grammar

For every phrase, what its rule takes is what its reader reads.

## Main results

* `Packrat.Program.solves_grammar` — the readers solve the grammar.
-/

namespace Packrat.Program

section

variable (t : Text) (cs : List Char)

/-- The rule of objects takes what their reader reads. -/
lemma solved_object : Solved t .object cs := by
  refine ⟨[], (takes_phrases t [] cs [.recursiveObject, .simpleObject]).trans ?_⟩
  simp only [List.foldr, Phrase.read, objectAt_eq cs, objectWith, whole_or, Option.or_none]

/-- The rule of simple objects takes what their reader reads. -/
lemma solved_simpleObject : Solved t .simpleObject cs := by
  refine ⟨[], (takes_phrases t [] cs
    [.nilLiteral, .boolean, .numeric, .character, .string, .regularExpression]).trans ?_⟩
  simp only [List.foldr, Phrase.read, simpleAt, whole_or, Option.or_none]

/-- The rule of objects with parts takes what their reader reads. -/
lemma solved_recursiveObject : Solved t .recursiveObject cs := by
  refine ⟨[], (takes_phrases t [] cs [.keyValuePair, .range, .hashLiteral, .list]).trans ?_⟩
  simp only [List.foldr, Phrase.read, compositeWith, whole_or, Option.or_none]

/-- The rule of truth values takes what their reader reads. -/
lemma solved_boolean : Solved t .boolean cs := by
  refine ⟨[], (takes_phrases t [] cs [.trueLiteral, .falseLiteral]).trans ?_⟩
  simp only [List.foldr, Phrase.read, booleanAt, whole_or, Option.or_none]

/-- The rule of numbers takes what their reader reads. -/
lemma solved_numeric : Solved t .numeric cs := by
  refine ⟨[], (takes_phrases t [] cs [.decimal, .integer]).trans ?_⟩
  simp only [List.foldr, Phrase.read, numericAt, whole_or, Option.or_none]

/-- The rule of strings takes what their reader reads. -/
lemma solved_string : Solved t .string cs := by
  refine ⟨[], (takes_phrases t [] cs
    [.symbolString, .singleQuotedString, .doubleQuotedString, .hereDoc]).trans ?_⟩
  simp only [List.foldr, Phrase.read, stringAt, whole_or, Option.or_none]

/-- The rule of a blank takes a space, a tab or a line break. -/
lemma solved_whitespace : Solved t .whitespace cs := by
  refine ⟨[], (takes_phrases t [] cs [.space, .eol]).trans ?_⟩
  simp only [List.foldr, Phrase.read, dropBlank?, silent_or, Option.or_none]

/-- The rule of signs takes a plus or a minus. -/
lemma solved_sign : Solved t .sign cs := by
  refine ⟨[], (takes_literals t [] cs ["+", "-"]).trans ?_⟩
  have hdrop : (cs.dropPrefix? ['+']).or (cs.dropPrefix? ['-']) =
      dropChar? (fun c => c == '+' || c == '-') cs := by
    rw [dropPrefix?_singleton, dropPrefix?_singleton, dropChar?_or]
  simp only [List.foldr, Phrase.read, Option.or_none]
  exact congrArg (fun left => taken [] (silent left)) hdrop

/-- The rule of a space takes a space or a tab. -/
lemma solved_space : Solved t .space cs := by
  refine ⟨[], (takes_literals t [] cs [" ", "\t"]).trans ?_⟩
  have hdrop : (cs.dropPrefix? [' ']).or (cs.dropPrefix? ['\t']) = dropChar? isSpace cs := by
    rw [dropPrefix?_singleton, dropPrefix?_singleton, dropChar?_or]
    rfl
  simp only [List.foldr, Phrase.read, Option.or_none]
  exact congrArg (fun left => taken [] (silent left)) hdrop

/-- The rule of a line break takes one. -/
lemma solved_eol : Solved t .eol cs := by
  refine ⟨[], (takes_literals t [] cs ["\r\n", "\n", "\r"]).trans ?_⟩
  have hdrop : (cs.dropPrefix? ['\r', '\n']).or ((cs.dropPrefix? ['\n']).or
      (cs.dropPrefix? ['\r'])) = dropBreak? cs := by
    fun_cases dropBreak? cs with
    | case1 cs => simp [List.dropPrefix?]
    | case2 cs => simp [List.dropPrefix?]
    | case3 cs hnot =>
      cases cs with
      | nil => simp [List.dropPrefix?]
      | cons c cs =>
        have hc : c ≠ '\n' := fun hc => hnot cs (by rw [hc])
        simp [List.dropPrefix?, hc]
    | case4 _ _ hn hr =>
      cases cs with
      | nil => rfl
      | cons c cs =>
        have hn' : c ≠ '\n' := fun hc => hn cs (by rw [hc])
        have hr' : c ≠ '\r' := fun hc => hr cs (by rw [hc])
        simp [List.dropPrefix?, hn', hr']
  simp only [List.foldr, Phrase.read, Option.or_none]
  exact congrArg (fun left => taken [] (silent left)) hdrop

/-- The rule of a digit takes one. -/
lemma solved_digit : Solved t .digit cs := ⟨[], takes_charSet t [] cs _⟩

/-- The rule of the end of the input takes nothing where nothing is ahead. -/
lemma solved_endOfInput : Solved t .endOfInput cs := by
  refine ⟨[], ?_⟩
  cases cs <;> rfl

/-! ## Words, characters and texts between marks -/

/-- What is built of a word is its node. -/
lemma takes_word (name : String) (node : Node) (s : String) :
    takes t (.build (Assembly.constant name node) (.literal s)) [] cs =
      taken [] (whole (wordAt s.toList node cs)) := by
  rw [takes_build, takes_literal, wordAt]
  cases cs.dropPrefix? s.toList <;> simp

/-- The rule of nil takes its word. -/
lemma solved_nilLiteral : Solved t .nilLiteral cs := ⟨[], takes_word t cs "Nil" .nil "nil"⟩

/-- The rule of what is true takes its word. -/
lemma solved_trueLiteral : Solved t .trueLiteral cs :=
  ⟨[], takes_word t cs "_true" (.bool true) "true"⟩

/-- The rule of what is false takes its word. -/
lemma solved_falseLiteral : Solved t .falseLiteral cs :=
  ⟨[], takes_word t cs "_false" (.bool false) "false"⟩

/-- The rule of characters takes what their reader reads. -/
lemma solved_character : Solved t .character cs := by
  refine ⟨[], ?_⟩
  change takes t (.build (Assembly.ofText "Character" "char" .character)
    (.sequence [.literal "\x60", .capture "char" (.charSet wordSet)])) [] cs = _
  have hmark : takes t (.literal "\x60") [] cs = taken [] (silent (dropChar? (· == '\x60') cs)) :=
    takes_mark cs t [] '\x60'
  simp only [takes_build, takes_sequence, takesParts_cons, takesParts_nil, takes_capture, hmark,
    takes_charSet, Phrase.read, characterAt]
  cases dropChar? (· == '\x60') cs with
  | none => rfl
  | some char =>
    simp only [silent_some, taken_some, andThen_matched, bind, Option.bind_some]
    cases dropChar? wordSet.contains char with
    | none => rfl
    | some rest =>
      simp

/-- What is built of a text between two marks is its node. -/
lemma takes_quoted (mark : Char) (name field : String) (make : String → Node) :
    takes t (.build (Assembly.ofText name field make)
        (.sequence [.literal (String.singleton mark),
          .capture field (.repetition
            (.sequence [.lookahead true (.literal (String.singleton mark)), .any]) 0 none),
          .literal (String.singleton mark)])) [] cs =
      taken [] (whole (quotedAt mark make cs)) := by
  have hmark : ∀ scope cs, takes t (.literal (String.singleton mark)) scope cs =
      taken scope (silent (dropChar? (· == mark) cs)) := fun scope cs => takes_mark cs t scope mark
  have hbody : ∀ scope cs, takes t
      (.repetition (.sequence [.lookahead true (.literal (String.singleton mark)), .any]) 0 none)
      scope cs = taken scope (silent (some (cs.dropWhile (· != mark)))) := by
    intro scope cs
    refine (takes_chars rfl (takes_unless (hmark scope) fun cs => ?_) cs).1
    cases cs with
    | nil => rfl
    | cons c cs => cases hc : c == mark <;> simp [dropChar?, hc]
  simp only [takes_build, takes_sequence, takesParts_cons, takesParts_nil, takes_capture, hmark,
    hbody, quotedAt]
  cases dropChar? (· == mark) cs with
  | none => rfl
  | some body =>
    simp only [silent_some, taken_some, andThen_matched, map_matched, bind, Option.bind_some]
    cases dropChar? (· == mark) (body.dropWhile (· != mark)) with
    | none => rfl
    | some rest =>
      simp [front_dropWhile]

/-- The rule of a string between single quotation marks takes what its reader reads. -/
lemma solved_singleQuotedString : Solved t .singleQuotedString cs :=
  ⟨[], takes_quoted t cs '\x27' "StringLit" "text" .string⟩

/-- The rule of a string between double quotation marks takes what its reader reads. -/
lemma solved_doubleQuotedString : Solved t .doubleQuotedString cs :=
  ⟨[], takes_quoted t cs '\x22' "StringLit" "text" .string⟩

/-- The rule of a regular expression takes what its reader reads. -/
lemma solved_regularExpression : Solved t .regularExpression cs :=
  ⟨[], takes_quoted t cs '/' "Regex" "pattern" .regex⟩

/-! ## Runs of characters of one kind -/

/-- A repetition of a phrase that takes one character of a kind takes all of them that are ahead. -/
lemma takes_phrase_chars {x : Phrase} {test : Char → Bool}
    (hp : grammar.produces (.named x) = .ok false)
    (h : ∀ cs, x.read cs = silent (dropChar? test cs)) (scope : Scope) :
    takes t (.repetition (.named x) 0 none) scope cs =
        taken scope (silent (some (cs.dropWhile test))) ∧
      takes t (.repetition (.named x) 1 none) scope cs =
        taken scope (silent ((dropChar? test cs).map fun _ => cs.dropWhile test)) :=
  takes_chars hp (fun cs => by rw [takes_named, h]) cs

/-- The rule of some spaces takes all that are ahead, and at least one. -/
lemma solved_spaces : Solved t .spaces cs :=
  ⟨[], (takes_phrase_chars t cs rfl (fun _ => rfl) []).2⟩

/-- The rule of spaces that may be missing takes all that are ahead. -/
lemma solved_optionalSpaces : Solved t .optionalSpaces cs := by
  refine ⟨[], (takes_optional t [] cs (takes_named t [] cs .spaces)).trans ?_⟩
  cases cs with
  | nil => rfl
  | cons c cs => cases hc : isSpace c <;> simp [Phrase.read, dropChar?, hc]

/-- A phrase that is passed over by steps. -/
lemma takes_phrase_steps {x : Phrase} {step : List Char → Option (Unit × List Char)}
    (hp : grammar.produces (.named x) = .ok false) (ha : Advances step)
    (h : ∀ cs, x.read cs = silent ((step cs).map fun s => s.2)) (scope : Scope) :
    takes t (.repetition (.named x) 0 none) scope cs =
        taken scope (silent (some (many step cs).2)) ∧
      takes t (.repetition (.named x) 1 none) scope cs =
        taken scope (silent ((step cs).map fun _ => (many step cs).2)) := by
  have hstep : ∀ cs, takes t (.named x) scope cs = takenOf (fun _ => none) scope (step cs) := by
    intro cs
    rw [takes_named, h]
    cases step cs <;> rfl
  exact ⟨by rw [takes, Rule.take_zeroOrMore hp ha hstep, takeSilently_eq],
    by rw [takes, Rule.take_oneOrMore hp ha hstep, takeSilently_eq]⟩

/-- The rule of line breaks takes all that are ahead. -/
lemma solved_eols : Solved t .eols cs := by
  have heol : ∀ cs, Phrase.eol.read cs = silent ((breakStep cs).map fun s => s.2) := by
    intro cs
    rw [breakStep, Option.map_map]
    exact congrArg silent Option.map_id'.symm
  refine ⟨[], (takes_phrase_steps t cs rfl advances_breakStep heol []).1.trans ?_⟩
  rw [many_breakStep, Phrase.read]

/-- The rule of some blanks takes all that are ahead, and at least one. -/
lemma solved_whitespaces : Solved t .whitespaces cs := by
  have hblank : ∀ cs, Phrase.whitespace.read cs = silent ((blankStep cs).map fun s => s.2) := by
    intro cs
    rw [blankStep, Option.map_map]
    exact congrArg silent Option.map_id'.symm
  refine ⟨[], (takes_phrase_steps t cs rfl advances_blankStep hblank []).2.trans ?_⟩
  rw [many_blankStep, Phrase.read, blankStep, Option.map_map]
  rfl

/-- The rule of blanks that may be missing takes all that are ahead. -/
lemma solved_optionalWhitespaces : Solved t .optionalWhitespaces cs := by
  refine ⟨[], (takes_optional t [] cs (takes_named t [] cs .whitespaces)).trans ?_⟩
  rw [Phrase.read, Phrase.read]
  cases hblank : dropBlank? cs with
  | some rest => rfl
  | none =>
    have hhead := dropBlank?_eq_none.1 hblank
    cases cs with
    | nil => rfl
    | cons c cs => simp [hhead c rfl]

/-! ## Numbers -/

/-- A repetition of a digit takes all that are ahead, and at least one. -/
lemma takes_oneOrMore_digit (scope : Scope) :
    takes t (.repetition (.named .digit) 1 none) scope cs = taken scope
      (silent ((dropChar? digitSet.contains cs).map fun _ => cs.dropWhile digitSet.contains)) :=
  (takes_phrase_chars t cs rfl (fun _ => rfl) scope).2

/-- An underscore that may be missing and digits are one group of them. -/
lemma takes_group (scope : Scope) :
    takes t (.sequence [.optional (.literal "_"), .repetition (.named .digit) 1 none]) scope cs =
      takenOf (fun _ => none) scope (groupStep cs) := by
  have hunder : takes t (.optional (.literal "_")) scope cs =
      .matched ⟨⟨none, (dropChar? (· == '_') cs).getD cs⟩, scope⟩ := by
    rw [takes_optional t scope cs (takes_literal t scope cs "_")]
    change taken scope (some ((silent (cs.dropPrefix? ['_'])).getD ⟨none, cs⟩)) = _
    rw [dropPrefix?_singleton]
    cases dropChar? (· == '_') cs <;> rfl
  simp only [takes_sequence, takesParts_cons, takesParts_nil, hunder, andThen_matched,
    takes_oneOrMore_digit, groupStep]
  cases dropChar? digitSet.contains ((dropChar? (· == '_') cs).getD cs) <;> rfl

/-- The rule of digits takes groups of them as long as there are any. -/
lemma solved_digits : Solved t .digits cs := by
  refine ⟨[], ?_⟩
  change takes t (.sequence [.repetition (.named .digit) 1 none,
    .repetition (.sequence [.optional (.literal "_"), .repetition (.named .digit) 1 none]) 0 none])
    [] cs = _
  have hgroups : ∀ scope cs, takes t (.repetition (.sequence [.optional (.literal "_"),
      .repetition (.named .digit) 1 none]) 0 none) scope cs =
      .matched ⟨⟨none, dropMoreDigits cs⟩, scope⟩ := by
    intro scope cs
    rw [takes, Rule.take_zeroOrMore rfl advances_groupStep fun cs => takes_group t cs scope,
      many_groupStep]
    rfl
  simp only [takes_sequence, takesParts_cons, takesParts_nil, hgroups,
    takes_oneOrMore_digit, Phrase.read, dropDigits?]
  cases hdigit : dropChar? digitSet.contains cs with
  | none => rfl
  | some more =>
    obtain ⟨d, hd, rfl⟩ := dropChar?_eq_some.1 hdigit
    simp [dropMoreDigits_dropWhile, dropMoreDigits_digit hd]

/-- The sign in front of a number is captured if there is one. -/
lemma takes_signCapture (scope : Scope) :
    takes t (.optional (.capture "sign" (.named .sign))) scope cs =
      .matched ⟨⟨(signAt cs).1.map fun sign => .fields [("sign", .text sign)], (signAt cs).2⟩,
        scope⟩ := by
  have hsign : takes t (.capture "sign" (.named .sign)) scope cs = taken scope
      ((dropChar? (fun c => c == '+' || c == '-') cs).map fun rest =>
        ⟨some (.fields [("sign", .text (String.ofList (front cs rest)))]), rest⟩) := by
    rw [takes_capture, takes_named, Phrase.read]
    cases dropChar? (fun c => c == '+' || c == '-') cs <;> rfl
  rw [takes_optional t scope cs hsign]
  fun_cases signAt cs with
  | case1 cs =>
    have hfront : front ('+' :: cs) cs = ['+'] := front_append ['+'] cs
    simp [dropChar?, hfront]
  | case2 cs =>
    have hfront : front ('-' :: cs) cs = ['-'] := front_append ['-'] cs
    simp [dropChar?, hfront]
  | case3 _ hplus hminus =>
    cases cs with
    | nil => rfl
    | cons c cs =>
      have hp : c ≠ '+' := fun hc => hplus cs (by rw [hc])
      have hm : c ≠ '-' := fun hc => hminus cs (by rw [hc])
      simp [dropChar?, hp, hm]

/-- The fields of a number: its digits and perhaps a sign. -/
lemma ofNumber_make (name : String) (make : String → Option String → Node) (sign : Option String)
    (digits : String) :
    ∃ value, mergeValues [sign.map fun sign => .fields [("sign", .text sign)],
        some (.fields [("digits", .text digits)])] = .ok value ∧
      (Assembly.ofNumber name make).make (.ofProduct value) =
        .ok (some (.object (make digits sign))) := by
  cases sign with
  | none => exact ⟨_, rfl, rfl⟩
  | some sign => exact ⟨_, rfl, rfl⟩

/-- What is built of a sign that may be missing and of digits is a number. -/
lemma takes_number (name : String) (make : String → Option String → Node) {rule : Pattern}
    {drop : List Char → Option (List Char)}
    (h : ∀ cs, takes t rule [] cs = taken [] (silent (drop cs))) :
    takes t (.build (Assembly.ofNumber name make)
        (.sequence [.optional (.capture "sign" (.named .sign)), .capture "digits" rule])) [] cs =
      taken [] (whole ((drop (signAt cs).2).map fun rest =>
        (make (String.ofList (front (signAt cs).2 rest)) (signAt cs).1, rest))) := by
  simp only [takes_build, takes_sequence, takesParts_cons, takesParts_nil, takes_signCapture,
    takes_capture, h, andThen_matched]
  cases drop (signAt cs).2 with
  | none => rfl
  | some rest =>
    obtain ⟨value, hmerge, hmake⟩ := ofNumber_make name make (signAt cs).1
      (String.ofList (front (signAt cs).2 rest))
    simp [hmerge, hmake]

/-- The rule of a number without a point takes what its reader reads. -/
lemma solved_integer : Solved t .integer cs := by
  refine ⟨[], (takes_number t cs "Integer" .integer fun cs => takes_named t [] cs .digits).trans ?_⟩
  simp only [Phrase.read, integerAt]
  cases dropDigits? (signAt cs).2 <;> rfl

/-- The rule of a number with a point takes what its reader reads. -/
lemma solved_decimal : Solved t .decimal cs := by
  have hdigits :
      ∀ cs, takes t (.sequence [.optional (.named .digits), .literal ".", .named .digits])
      [] cs = taken [] (silent ((dropChar? (· == '.') ((dropDigits? cs).getD cs)).bind
        dropDigits?)) := by
    intro cs
    have hopt : takes t (.optional (.named .digits)) [] cs =
        .matched ⟨⟨none, (dropDigits? cs).getD cs⟩, []⟩ := by
      rw [takes_optional t [] cs (takes_named t [] cs .digits), Phrase.read]
      cases dropDigits? cs <;> rfl
    have hpoint : ∀ scope cs, takes t (.literal ".") scope cs =
        taken scope (silent (dropChar? (· == '.') cs)) := fun scope cs => takes_mark cs t scope '.'
    simp only [takes_sequence, takesParts_cons, takesParts_nil, hopt, hpoint, takes_named,
      Phrase.read, andThen_matched]
    cases dropChar? (· == '.') ((dropDigits? cs).getD cs) with
    | none => rfl
    | some point =>
      simp only [silent_some, taken_some, andThen_matched, Option.bind_some]
      cases dropDigits? point <;> rfl
  refine ⟨[], (takes_number t cs "Decimal" .decimal hdigits).trans ?_⟩
  simp only [Phrase.read, decimalAt, bind]
  cases dropChar? (· == '.') ((dropDigits? (signAt cs).2).getD (signAt cs).2) with
  | none => rfl
  | some point =>
    simp only [Option.bind_some]
    cases dropDigits? point <;> rfl

/-! ## Symbols, comments and documents -/

/-- The rule of symbols takes what their reader reads. -/
lemma solved_symbolString : Solved t .symbolString cs := by
  refine ⟨[], ?_⟩
  change takes t (.build (Assembly.ofText "StringLit" "text" .string)
    (.sequence [.literal ":", .capture "text" (.repetition (.charSet letterSet) 1 none)])) [] cs = _
  have hname : ∀ scope cs, takes t (.repetition (.charSet letterSet) 1 none) scope cs =
      taken scope (silent ((dropChar? letterSet.contains cs).map fun _ =>
        cs.dropWhile letterSet.contains)) :=
    fun scope cs => (takes_chars rfl (fun cs => takes_charSet t scope cs letterSet) cs).2
  have hcolon : takes t (.literal ":") [] cs = taken [] (silent (dropChar? (· == ':') cs)) :=
    takes_mark cs t [] ':'
  simp only [takes_build, takes_sequence, takesParts_cons, takesParts_nil, takes_capture, hname,
    hcolon, Phrase.read, symbolAt]
  cases dropChar? (· == ':') cs with
  | none => rfl
  | some name =>
    simp only [silent_some, taken_some, andThen_matched, bind, Option.bind_some]
    cases dropChar? letterSet.contains name with
    | none => rfl
    | some rest => simp [front_dropWhile]

/-- Characters up to the end of the line. -/
lemma takes_withinLine (scope : Scope) :
    takes t (.repetition (.sequence [.lookahead true (.named .eol), .any]) 0 none) scope cs =
      taken scope (silent (some (cs.dropWhile (!endsLine ·)))) := by
  refine (takes_chars rfl (takes_unless (fun cs => takes_named t scope cs .eol) fun cs => ?_) cs).1
  rw [Phrase.read]
  cases hbreak : dropBreak? cs with
  | none =>
    have hhead := dropBreak?_eq_none.1 hbreak
    cases cs with
    | nil => rfl
    | cons c cs => simp [hhead c rfl]
  | some rest =>
    obtain ⟨b, hb, rfl, -⟩ := dropBreak?_eq_some.1 hbreak
    obtain ⟨c, hc, hline⟩ := hb.head rest
    rw [Option.mem_def.1 hc]
    simp [hline]

/-- The rule of comments takes what their reader reads. -/
lemma solved_comment : Solved t .comment cs := by
  refine ⟨[], ?_⟩
  change takes t (.build (Assembly.ofText "Comment" "text" .comment) (.sequence [.literal "#",
    .capture "text" (.repetition (.sequence [.lookahead true (.named .eol), .any]) 0 none),
    .optional (.named .eol)])) [] cs = _
  have hmark : takes t (.literal "#") [] cs = taken [] (silent (dropChar? (· == '#') cs)) :=
    takes_mark cs t [] '#'
  have heol : ∀ scope cs, takes t (.optional (.named .eol)) scope cs =
      .matched ⟨⟨none, (dropBreak? cs).getD cs⟩, scope⟩ := by
    intro scope cs
    rw [takes_optional t scope cs (takes_named t scope cs .eol), Phrase.read]
    cases dropBreak? cs <;> rfl
  simp only [takes_build, takes_sequence, takesParts_cons, takesParts_nil, takes_capture,
    takes_withinLine, heol, hmark, Phrase.read, commentAt]
  cases dropChar? (· == '#') cs with
  | none => rfl
  | some text => simp [front_dropWhile]

/-- What is bound while a document is read. -/
def labelScope (label : List Char) : Scope := [("label", String.ofList label)]

/-- The end of a line or of the text. -/
lemma takes_lineEnd (scope : Scope) :
    takes t (.choice [.named .eol, .named .endOfInput]) scope cs =
      taken scope (silent (if cs = [] then some [] else dropBreak? cs)) := by
  refine (takes_phrases t scope cs [.eol, .endOfInput]).trans ?_
  simp only [List.foldr, Phrase.read, Option.or_none]
  cases cs with
  | nil => rfl
  | cons c cs => simp

/-- The label of a document is taken once it is bound. -/
lemma takes_label (label : List Char) :
    takes t (.backref "label") (labelScope label) cs =
      taken (labelScope label) (silent (cs.dropPrefix? label)) := by
  have hbound : (labelScope label).lookup "label" = some (String.ofList label) := by
    simp [labelScope]
  rw [takes_backref t _ cs hbound, String.toList_ofList]

/-- The end of a document is its label, with the end of the text or a line break behind it. -/
lemma takes_terminator (label : List Char) :
    takes t terminator (labelScope label) cs =
      taken (labelScope label) (silent (endLabel? label cs)) := by
  change takes t (.sequence [.backref "label", .choice [.named .eol, .named .endOfInput]]) _ _ = _
  simp only [takes_sequence, takesParts_cons, takesParts_nil, takes_label, takes_lineEnd, endLabel?]
  cases cs.dropPrefix? label with
  | none => rfl
  | some rest =>
    simp only [silent_some, taken_some, andThen_matched, bind, Option.bind_some]
    cases (if rest = [] then some [] else dropBreak? rest) <;> rfl

/-- A line of a document is taken in one step. -/
lemma takes_line (label : List Char) :
    takes t (.sequence [.lookahead true terminator,
        .repetition (.sequence [.lookahead true (.named .eol), .any]) 0 none, .named .eol])
        (labelScope label) cs =
      takenOf (fun _ => none) (labelScope label) (lineStep label cs) := by
  simp only [takes_sequence, takesParts_cons, takesParts_nil,
    takes_lookahead t _ cs true (takes_terminator t cs label), takes_withinLine, takes_named,
    Phrase.read, lineStep]
  cases endLabel? label cs with
  | some rest => rfl
  | none =>
    simp only [silent_none, Option.isSome_none, Bool.false_eq_true, if_false, silent_some,
      taken_some, andThen_matched]
    cases dropBreak? (cs.dropWhile (!endsLine ·)) <;> rfl

/-- The lines of a document are taken up to the one that ends it. -/
lemma takes_lines {label : List Char} (hl : LabelText label) :
    takes t (.repetition (.sequence [.lookahead true terminator,
        .repetition (.sequence [.lookahead true (.named .eol), .any]) 0 none, .named .eol]) 0 none)
        (labelScope label) cs =
      .matched ⟨⟨none, (many (lineStep label) cs).2⟩, labelScope label⟩ := by
  rw [takes, Rule.take_zeroOrMore rfl (advances_lineStep hl) fun cs => takes_line t cs label]
  rfl

/-- The rule of documents takes what their reader reads. -/
lemma solved_hereDoc : Solved t .hereDoc cs := by
  have hname : ∀ cs, takes t (.bind "label" (.repetition (.charSet labelSet) 1 none)) [] cs =
      taken (labelScope (cs.takeWhile labelSet.contains)) (silent
        ((dropChar? labelSet.contains cs).map fun _ => cs.dropWhile labelSet.contains)) := by
    intro cs
    rw [takes_bind, (takes_chars rfl (fun cs => takes_charSet t [] cs labelSet) cs).2]
    cases dropChar? labelSet.contains cs with
    | none => rfl
    | some rest => simp [labelScope, front_dropWhile]
  have hopening : takes t (.literal "<<") [] cs =
      taken [] (silent (cs.dropPrefix? ['<', '<'])) := takes_literal t [] cs "<<"
  refine ⟨labelScope ((cs.drop 2).takeWhile labelSet.contains), ?_⟩
  change takes t (.build (Assembly.ofText "StringLit" "text" .string) (.sequence [.literal "<<",
    .bind "label" (.repetition (.charSet labelSet) 1 none), .named .eol,
    .capture "text" (.repetition (.sequence [.lookahead true terminator,
      .repetition (.sequence [.lookahead true (.named .eol), .any]) 0 none, .named .eol]) 0 none),
    .backref "label", .choice [.named .eol, .named .endOfInput]])) [] cs = _
  simp only [takes_build, takes_sequence, takesParts_cons, takesParts_nil, hopening, Phrase.read,
    hereDocAt]
  cases hopen : cs.dropPrefix? ['<', '<'] with
  | none => rfl
  | some label =>
    obtain rfl := dropPrefix?_eq_some.1 hopen
    simp only [silent_some, taken_some, andThen_matched, hname, bind, Option.bind_some]
    cases hlabel : dropChar? labelSet.contains label with
    | none => rfl
    | some more =>
      have hl : LabelText (label.takeWhile labelSet.contains) := by
        obtain ⟨c, hc, rfl⟩ := dropChar?_eq_some.1 hlabel
        exact ⟨by simp [hc], fun d hd => List.mem_takeWhile_imp hd⟩
      simp only [Option.map_some, silent_some, taken_some, andThen_matched, takes_named,
        Phrase.read, Option.bind_some]
      cases dropBreak? (label.dropWhile labelSet.contains) with
      | none => rfl
      | some body =>
        simp only [silent_some, taken_some, andThen_matched, takes_capture, takes_lines t body hl,
          map_matched, takes_label, takes_lineEnd, endLabel?, Option.bind_some, bind]
        cases List.dropPrefix? _ (label.takeWhile labelSet.contains) with
        | none => rfl
        | some rest =>
          simp only [silent_some, taken_some, andThen_matched, Option.bind_some]
          cases (if rest = [] then some [] else dropBreak? rest) with
          | none => rfl
          | some rest => simp

/-! ## Composite objects -/

/-- The rule of pairs takes what their reader reads. -/
lemma solved_keyValuePair : Solved t .keyValuePair cs := by
  refine ⟨[], ?_⟩
  change takes t (.build Assembly.keyValue (.sequence [.capture "key" (.named .simpleObject),
    .named .optionalSpaces, .literal ":", .named .optionalSpaces,
    .capture "value" (.named .object)])) [] cs = _
  have hcolon : ∀ scope cs, takes t (.literal ":") scope cs =
      taken scope (silent (dropChar? (· == ':') cs)) := fun scope cs => takes_mark cs t scope ':'
  simp only [takes_build, takes_sequence, takesParts_cons, takesParts_nil, takes_capture, hcolon,
    takes_named, Phrase.read, keyValueWith]
  cases simpleAt cs with
  | none => rfl
  | some result =>
    obtain ⟨key, left⟩ := result
    simp only [whole_some, silent_some, taken_some, andThen_matched, map_matched, bind,
      Option.bind_some]
    cases dropChar? (· == ':') (left.dropWhile isSpace) with
    | none => rfl
    | some behindColon =>
      simp only [silent_some, taken_some, andThen_matched, Option.bind_some]
      cases objectAt (behindColon.dropWhile isSpace) <;> rfl

/-- The end of a range is a number without a point or a character. -/
lemma takes_endpoint (scope : Scope) :
    takes t (.choice [.named .integer, .named .character]) scope cs =
      taken scope (whole (endpointAt cs)) := by
  refine (takes_phrases t scope cs [.integer, .character]).trans ?_
  simp only [List.foldr, Phrase.read, endpointAt, whole_or, Option.or_none]

/-- The third point of a range is captured if there is one. -/
lemma takes_exclusivity (scope : Scope) :
    takes t (.optional (.capture "exclusivity" (.literal "."))) scope cs =
      .matched ⟨⟨(exclusivityAt cs).1.map fun point => .fields [("exclusivity", .text point)],
        (exclusivityAt cs).2⟩, scope⟩ := by
  have hpoint : takes t (.capture "exclusivity" (.literal ".")) scope cs = taken scope
      ((dropChar? (· == '.') cs).map fun rest =>
        ⟨some (.fields [("exclusivity", .text (String.ofList (front cs rest)))]), rest⟩) := by
    have hmark : takes t (.literal ".") scope cs = taken scope (silent (dropChar? (· == '.') cs)) :=
      takes_mark cs t scope '.'
    rw [takes_capture, hmark]
    cases dropChar? (· == '.') cs <;> rfl
  rw [takes_optional t scope cs hpoint]
  fun_cases exclusivityAt cs with
  | case1 cs =>
    have hfront : front ('.' :: cs) cs = ['.'] := front_append ['.'] cs
    simp [dropChar?, hfront]
  | case2 _ hnot =>
    cases cs with
    | nil => rfl
    | cons c cs =>
      have hc : c ≠ '.' := fun hc => hnot cs (by rw [hc])
      simp [dropChar?, hc]

/-- The fields of a range: its two ends and perhaps a third point. -/
lemma range_make (start stop : Node) (point : Option String) :
    ∃ value, mergeValues [some (.fields [("start", .object start)]), none, none,
        point.map fun point => .fields [("exclusivity", .text point)], none,
        some (.fields [("end", .object stop)])] = .ok value ∧
      Assembly.range.make (.ofProduct value) = .ok (some (.object (.range start stop point))) := by
  cases point with
  | none => exact ⟨_, rfl, rfl⟩
  | some point => exact ⟨_, rfl, rfl⟩

/-- The rule of ranges takes what their reader reads. -/
lemma solved_range : Solved t .range cs := by
  refine ⟨[], ?_⟩
  change takes t (.build Assembly.range (.sequence [
    .capture "start" (.choice [.named .integer, .named .character]), .named .optionalSpaces,
    .literal "..", .optional (.capture "exclusivity" (.literal ".")), .named .optionalSpaces,
    .capture "end" (.choice [.named .integer, .named .character])])) [] cs = _
  have hpoints : ∀ scope cs, takes t (.literal "..") scope cs =
      taken scope (silent (cs.dropPrefix? ['.', '.'])) := fun scope cs =>
    takes_literal t scope cs ".."
  simp only [takes_build, takes_sequence, takesParts_cons, takesParts_nil, takes_capture, hpoints,
    takes_endpoint, takes_exclusivity, takes_named, Phrase.read, rangeAt]
  cases endpointAt cs with
  | none => rfl
  | some result =>
    obtain ⟨start, left⟩ := result
    simp only [whole_some, silent_some, taken_some, andThen_matched, map_matched, bind,
      Option.bind_some]
    cases (left.dropWhile isSpace).dropPrefix? ['.', '.'] with
    | none => rfl
    | some behindPoints =>
      simp only [silent_some, taken_some, andThen_matched, Option.bind_some]
      cases endpointAt ((exclusivityAt behindPoints).2.dropWhile isSpace) with
      | none => rfl
      | some result =>
        obtain ⟨stop, rest⟩ := result
        obtain ⟨value, hmerge, hmake⟩ := range_make start stop (exclusivityAt behindPoints).1
        simp only [whole_some, taken_some, andThen_matched, map_matched, Option.bind_some,
          Option.getD_some, hmerge, hmake]

/-! ## Elements between marks -/

/-- The objects of a row are spliced one by one. -/
lemma spliceValues_objects (nodes : List Node) :
    spliceValues (nodes.map fun node => some (.object node)) = nodes.map .object := by
  induction nodes with
  | nil => rfl
  | cons node nodes ih => exact congrArg (Value.object node :: ·) ih

/-- A comma and an element behind it. -/
def commaPattern (x : Phrase) : Pattern :=
  .sequence [.named .optionalWhitespaces, .literal ",", .named .optionalWhitespaces, .named x]

section

variable {x : Phrase} {element : Reader} (hx : ∀ cs, x.read cs = whole (element cs))
  (ha : Advances element)

include hx in
/-- A comma and an element are taken as their reader reads them. -/
lemma takes_comma (scope : Scope) :
    takes t (commaPattern x) scope cs =
      takenOf (fun node => some (.object node)) scope (commaThen element cs) := by
  have hcomma : ∀ scope cs, takes t (.literal ",") scope cs =
      taken scope (silent (dropChar? (· == ',') cs)) := fun scope cs => takes_mark cs t scope ','
  have hblanks : ∀ cs, Phrase.optionalWhitespaces.read cs =
      silent (some (cs.dropWhile isBlank)) := fun _ => rfl
  simp only [commaPattern, takes_sequence, takesParts_cons, takesParts_nil, hcomma, takes_named,
    hblanks, hx, commaThen, silent_some, taken_some, andThen_matched, bind]
  cases dropChar? (· == ',') (cs.dropWhile isBlank) with
  | none => rfl
  | some behindComma =>
    simp only [silent_some, taken_some, andThen_matched, Option.bind_some]
    cases element (behindComma.dropWhile isBlank) <;> rfl

include hx ha in
/-- The elements behind the first one are taken as long as there is a comma in front. -/
lemma takes_others (hp : grammar.produces (commaPattern x) = .ok true) (scope : Scope) :
    takes t (.repetition (commaPattern x) 0 none) scope cs =
      .matched ⟨⟨some (.items ((many (commaThen element) cs).1.map .object)),
        (many (commaThen element) cs).2⟩, scope⟩ := by
  rw [takes, Rule.take_repetition (advances_commaThen ha) fun cs => takes_comma t cs hx scope,
    if_neg (by omega)]
  simp only [Grammar.repetitionValue, hp, spliceValues_objects, bind, Except.bind]
  rfl

include hx ha in
/-- The elements of a row are taken, if there are any. -/
lemma takes_elements (hp : grammar.produces (commaPattern x) = .ok true)
    (hp' : grammar.produces (.sequence [.named x, .repetition (commaPattern x) 0 none]) = .ok true)
    (scope : Scope) :
    takes t (.repetition (.sequence [.named x, .repetition (commaPattern x) 0 none]) 0 (some 1))
        scope cs =
      .matched ⟨⟨some (.items ((elementsWith element cs).1.map .object)),
        (elementsWith element cs).2⟩, scope⟩ := by
  have hrow : takes t (.sequence [.named x, .repetition (commaPattern x) 0 none]) scope cs =
      taken scope ((element cs).map fun _ =>
        ⟨some (.items ((elementsWith element cs).1.map .object)),
          (elementsWith element cs).2⟩) := by
    simp only [takes_sequence, takesParts_cons, takesParts_nil, takes_named, hx,
      takes_others t _ hx ha hp, elementsWith]
    cases element cs with
    | none => rfl
    | some result =>
      obtain ⟨node, rest⟩ := result
      simp
  rw [takes] at hrow ⊢
  rw [Rule.take, takeTrips, hrow]
  cases helement : element cs with
  | none =>
    simp only [elementsWith, helement, Grammar.repetitionValue, hp']
    rfl
  | some result =>
    have hlt : (elementsWith element cs).2.length < cs.length := by
      obtain ⟨node, rest⟩ := result
      have hlt := ha.length_lt helement
      have hle := (many_suffix (advances_commaThen ha) rest).length_le
      simp only [elementsWith, helement]
      omega
    obtain ⟨budget, hbudget⟩ : ∃ budget, cs.length = budget + 1 := ⟨cs.length - 1, by omega⟩
    have hstop : ∀ take scope rest, takeTrips take 0 (some 1) cs.length (0 + 1) scope rest =
        (.matched ⟨⟨[], rest, scope⟩, 0 + 1⟩ : Outcome Node (TakenTrips Node)) := by
      intro take scope rest
      rw [hbudget, takeTrips]
      exact if_pos rfl
    have hsplice : ∀ values : List (Value Node),
        spliceValues [some (.items values)] = values := fun values => List.append_nil values
    simp only [Option.map_some, taken_some, Nat.ne_of_lt hlt, if_false, hstop, map_matched,
      Grammar.repetitionValue, hp', bind, Except.bind]
    rw [if_neg (by decide)]
    simp only [andThen_matched, hsplice]
    rfl

include hx ha in
/-- Elements between two marks are taken as their reader reads them. -/
lemma takes_delimited (hp : grammar.produces (commaPattern x) = .ok true)
    (hp' : grammar.produces (.sequence [.named x, .repetition (commaPattern x) 0 none]) = .ok true)
    (opening closing : Char) (scope : Scope) :
    takes t (.sequence [.literal (String.singleton opening), .named .optionalWhitespaces,
        .repetition (.sequence [.named x, .repetition (commaPattern x) 0 none]) 0 (some 1),
        .named .optionalWhitespaces, .literal (String.singleton closing)]) scope cs =
      taken scope ((delimitedWith opening closing element cs).map fun (nodes, rest) =>
        ⟨some (.items (nodes.map .object)), rest⟩) := by
  have hblanks : ∀ cs, Phrase.optionalWhitespaces.read cs =
      silent (some (cs.dropWhile isBlank)) := fun _ => rfl
  simp only [takes_sequence, takesParts_cons, takesParts_nil, takes_named, hblanks,
    takes_elements t _ hx ha hp hp', takes_mark, delimitedWith]
  cases dropChar? (· == opening) cs with
  | none => rfl
  | some inside =>
    simp only [silent_some, taken_some, andThen_matched, map_matched, bind, Option.bind_some]
    cases dropChar? (· == closing)
        ((elementsWith element (inside.dropWhile isBlank)).2.dropWhile isBlank) with
    | none => rfl
    | some rest => simp

end

/-- The rule of hashes takes what their reader reads. -/
lemma solved_hashLiteral : Solved t .hashLiteral cs := by
  refine ⟨[], ?_⟩
  change takes t (.build (Assembly.ofNodes "Hash" "pairs" .hash) (.capture "pairs" (.sequence [
    .literal (String.singleton '\x7b'), .named .optionalWhitespaces,
    .repetition (.sequence [.named .keyValuePair,
      .repetition (commaPattern .keyValuePair) 0 none]) 0 (some 1),
    .named .optionalWhitespaces, .literal (String.singleton '\x7d')]))) [] cs = _
  have hx : ∀ cs, Phrase.keyValuePair.read cs = whole (keyValueWith objectAt cs) := fun _ => rfl
  rw [takes_build, takes_capture, takes_delimited t cs hx
    (advances_keyValueWith advances_objectAt) rfl rfl, Phrase.read, hashWith]
  cases delimitedWith '\x7b' '\x7d' (keyValueWith objectAt) cs with
  | none => rfl
  | some result => simp

/-- The rule of lists takes what their reader reads. -/
lemma solved_list : Solved t .list cs := by
  refine ⟨[], ?_⟩
  change takes t (.build (Assembly.ofNodes "List" "items" .list) (.capture "items" (.sequence [
    .literal (String.singleton '['), .named .optionalWhitespaces,
    .repetition (.sequence [.named .object,
      .repetition (commaPattern .object) 0 none]) 0 (some 1),
    .named .optionalWhitespaces, .literal (String.singleton ']')]))) [] cs = _
  rw [takes_build, takes_capture, takes_delimited t cs (fun _ => rfl) advances_objectAt rfl rfl,
    Phrase.read, listWith]
  cases delimitedWith '[' ']' objectAt cs with
  | none => rfl
  | some result => simp

/-! ## Statements -/

/-- A comment is read wherever its mark is ahead. -/
lemma isSome_commentAt : (commentAt cs).isSome = (cs.head? == some '#') := by
  cases cs with
  | nil => rfl
  | cons c cs => cases hc : c == '#' <;> simp [commentAt, dropChar?, hc]

/-- The rule of the end of an expression takes what its reader drops. -/
lemma solved_expressionTerminator : Solved t .expressionTerminator cs := by
  refine ⟨[], ?_⟩
  have hmark : takes t (.literal ";") [] cs = taken [] (silent (dropChar? (· == ';') cs)) :=
    takes_mark cs t [] ';'
  have hahead : takes t (.lookahead false (.named .comment)) [] cs =
      taken [] (silent (if cs.head? = some '#' then some cs else none)) := by
    rw [takes_lookahead t [] cs false (takes_named t [] cs .comment), Phrase.read]
    have hcomment := isSome_commentAt cs
    cases hread : commentAt cs with
    | none =>
      have hhead : cs.head? ≠ some '#' := by
        rw [hread] at hcomment
        exact ne_of_beq_false hcomment.symm
      rw [if_neg hhead]
      rfl
    | some result =>
      have hhead : cs.head? = some '#' := by
        rw [hread] at hcomment
        exact eq_of_beq hcomment.symm
      rw [if_pos hhead]
      rfl
  refine (takes_choice_cons hmark (takes_choice_cons (takes_named t [] cs .eol)
    (takes_choice_cons hahead (takes_phrases t [] cs [.endOfInput])))).trans ?_
  simp only [List.foldr, Option.or_none, Phrase.read, terminated?, ← silent_or]
  congr 4
  cases cs <;> simp

variable {t cs} in
/-- A line starts behind a line break. -/
lemma lineStartsAt_behind {a rest : List Char} (h : a ++ rest <:+ t.chars.toList) (hne : a ≠ []) :
    t.lineStartsAt rest = true ↔ EndsLine a := by
  obtain ⟨before, c, rfl⟩ := (List.eq_nil_or_concat' a).resolve_left hne
  rw [List.append_assoc, List.singleton_append] at h
  have hlast : c :: rest <:+ t.chars.toList := (List.suffix_append before _).trans h
  have hplace : t.place rest = t.place (c :: rest) + 1 :=
    (Text.place_add hlast (show c :: rest = [c] ++ rest from rfl)).symm
  rw [Text.lineStartsAt, hplace, Text.startsLine?, Text.char?_place hlast, EndsLine]
  simp

/-- Behind an object, a line has started already, or the expression is ended. -/
lemma takes_expressionEnd {a rest : List Char} (h : a ++ rest <:+ t.chars.toList) (hne : a ≠ []) :
    takes t (.choice [.lineStart, .sequence [.named .optionalSpaces,
        .named .expressionTerminator]]) [] rest =
      taken [] (silent
        (if EndsLine a then some rest else terminated? (rest.dropWhile isSpace))) := by
  have hstart : takes t .lineStart [] rest =
      taken [] (silent (if EndsLine a then some rest else none)) := by
    simp only [← lineStartsAt_behind h hne]
    exact takeSilently_eq [] _
  have hrow : takes t (.sequence [.named .optionalSpaces, .named .expressionTerminator]) [] rest =
      taken [] (silent (terminated? (rest.dropWhile isSpace))) := by
    simp only [takes_sequence, takesParts_cons, takesParts_nil, takes_named, Phrase.read,
      silent_some, taken_some, andThen_matched]
    cases terminated? (rest.dropWhile isSpace) <;> rfl
  refine (takes_choice_cons hstart (takes_choice_cons hrow takes_choice_nil)).trans ?_
  split <;> simp

/-- The rule of expressions takes what their reader reads, if they lie in the text. -/
lemma solved_expression (hcs : cs <:+ t.chars.toList) : Solved t .expression cs := by
  refine ⟨[], ?_⟩
  change takes t (.sequence [.named .object, .choice [.lineStart, .sequence [
    .named .optionalSpaces, .named .expressionTerminator]]]) [] cs = _
  simp only [takes_sequence, takesParts_cons, takesParts_nil, takes_named, Phrase.read,
    expressionAt]
  cases hobject : objectAt cs with
  | none => rfl
  | some result =>
    obtain ⟨node, rest⟩ := result
    obtain ⟨a, hne, rfl⟩ := advances_objectAt cs node rest hobject
    simp only [whole_some, taken_some, andThen_matched, takes_expressionEnd t hcs hne, bind,
      Option.bind_some, front_append]
    split
    · rfl
    · cases terminated? (rest.dropWhile isSpace) <;> rfl

/-- What an expression takes at the start of a statement, with the comment behind it if there is
one. -/
def takenWithComment (read : Node × List Char) : Piece Node :=
  match commentAt (read.2.dropWhile isSpace) with
  | some (comment, rest) => ⟨statementValue [read.1, comment], rest⟩
  | none => ⟨statementValue [read.1], read.2.dropWhile isSpace⟩

/-- The rule of statements takes what their reader reads. -/
lemma solved_statement : Solved t .statement cs := by
  refine ⟨[], ?_⟩
  have hcomment : ∀ cs, takes t (.optional (.named .comment)) [] cs =
      taken [] (some ((whole (commentAt cs)).getD ⟨none, cs⟩)) :=
    fun cs => takes_optional t [] cs (takes_named t [] cs .comment)
  have hrow : takes t (.sequence [.named .expression, .named .optionalSpaces,
      .optional (.named .comment)]) [] cs =
      taken [] ((expressionAt cs).map takenWithComment) := by
    simp only [takes_sequence, takesParts_cons, takesParts_nil, takes_named, Phrase.read]
    cases expressionAt cs with
    | none => rfl
    | some result =>
      obtain ⟨node, rest⟩ := result
      simp only [whole_some, silent_some, taken_some, andThen_matched, Option.map_some, hcomment,
        takenWithComment]
      cases commentAt (rest.dropWhile isSpace) <;> rfl
  refine (takes_choice_cons (takes_named t [] cs .comment)
    (takes_choice_cons hrow takes_choice_nil)).trans ?_
  rw [Option.or_none, Phrase.read, Phrase.read, statementAt]
  cases commentAt cs with
  | some result => rfl
  | none =>
    cases expressionAt cs with
    | none => rfl
    | some result =>
      obtain ⟨node, rest⟩ := result
      simp only [Option.map_some, bind, Option.bind_some, takenWithComment]
      cases commentAt (rest.dropWhile isSpace) <;> rfl

/-- The statements of a program are spliced one by one, with or without comments behind them. -/
lemma spliceValues_statements : ∀ rows : List (List Node),
    spliceValues (rows.map statementValue) = rows.flatten.map .object
  | [] => rfl
  | [] :: rows => spliceValues_statements rows
  | [node] :: rows => congrArg (Value.object node :: ·) (spliceValues_statements rows)
  | (node :: other :: nodes) :: rows => by
    rw [List.flatten_cons, List.map_append, ← spliceValues_statements rows]
    rfl

/-- The rule of programs takes what their reader reads. -/
lemma solved_program : Solved t .program cs := by
  refine ⟨[], ?_⟩
  change takes t (.build (Assembly.ofNodes "Program" "statements" .program) (.capture "statements"
    (.repetition (.choice [.named .statement, .named .whitespace]) 0 none))) [] cs = _
  have hstep : ∀ cs, takes t (.choice [.named .statement, .named .whitespace]) [] cs =
      takenOf statementValue [] (statementStep cs) := by
    intro cs
    refine (takes_phrases t [] cs [.statement, .whitespace]).trans ?_
    simp only [List.foldr, Phrase.read, Option.or_none, statementStep]
    cases statementAt cs with
    | some result => rfl
    | none => cases dropBlank? cs <;> rfl
  have hproduces : grammar.produces
      (.choice [.named .statement, .named .whitespace]) = .ok true := rfl
  rw [takes_build, takes_capture, takes, Rule.take_repetition advances_statementStep hstep,
    if_neg (by omega)]
  simp only [Grammar.repetitionValue, hproduces, spliceValues_statements, bind, Except.bind,
    if_true, map_matched, andThen_matched, Option.getD_some, ofNodes_make, Phrase.read, programAt,
    statementsAt]
  rfl

/-! ## The whole grammar -/

variable {cs}

/-- What takes characters silently leaves the end of what was ahead. -/
lemma suffix_of_silent {left : Option (List Char)} {piece : Piece Node}
    (hl : ∀ rest, left = some rest → rest <:+ cs) (h : silent left = some piece) :
    piece.rest <:+ cs := by
  cases left with
  | none => cases h
  | some rest =>
    cases h
    exact hl rest rfl

/-- What reads a node leaves the end of what was ahead. -/
lemma suffix_of_whole {read : Reader} {piece : Piece Node} (ha : Advances read)
    (h : whole (read cs) = some piece) : piece.rest <:+ cs := by
  cases hread : read cs with
  | none =>
    rw [hread] at h
    cases h
  | some result =>
    rw [hread] at h
    cases h
    obtain ⟨a, -, rfl⟩ := ha cs _ _ hread
    exact List.suffix_append a _

/-- Behind a blank is the end of what was ahead. -/
lemma dropBlank?_suffix {rest : List Char} (h : dropBlank? cs = some rest) : rest <:+ cs := by
  obtain ⟨a, -, -, rfl⟩ := dropBlank?_eq_some h
  exact List.suffix_append a rest

/-- Behind digits is the end of what was ahead. -/
lemma dropDigits?_suffix {rest : List Char} (h : dropDigits? cs = some rest) : rest <:+ cs := by
  obtain ⟨a, -, rfl, -⟩ := dropDigits?_eq_some.1 h
  exact List.suffix_append a rest

/-- What passes over a run of characters leaves a part of those that were ahead. -/
lemma suffix_of_run {test : Char → Bool} {left : Option (List Char)} :
    ∀ rest, (left.map fun _ => cs.dropWhile test) = some rest → rest <:+ cs := by
  intro rest h
  obtain ⟨_, -, rfl⟩ := Option.map_eq_some_iff.1 h
  exact List.dropWhile_suffix test

/-- No phrase leaves more than was ahead. -/
lemma Phrase.read_suffix (x : Phrase) (piece : Piece Node) (h : x.read cs = some piece) :
    piece.rest <:+ cs := by
  cases x with
  | program =>
    cases h
    exact many_suffix advances_statementStep cs
  | statement =>
    obtain ⟨⟨nodes, rest⟩, hread, rfl⟩ := Option.map_eq_some_iff.1 h
    obtain ⟨a, -, rfl⟩ := advances_statementAt cs nodes rest hread
    exact List.suffix_append a rest
  | comment => exact suffix_of_whole advances_commentAt h
  | expression => exact suffix_of_whole advances_expressionAt h
  | object => exact suffix_of_whole advances_objectAt h
  | simpleObject => exact suffix_of_whole cuts_simpleAt.advances h
  | recursiveObject => exact suffix_of_whole (advances_compositeWith advances_objectAt) h
  | nilLiteral => exact suffix_of_whole cuts_nilAt.advances h
  | boolean => exact suffix_of_whole cuts_booleanAt.advances h
  | trueLiteral => exact suffix_of_whole cuts_trueAt.advances h
  | falseLiteral => exact suffix_of_whole cuts_falseAt.advances h
  | numeric => exact suffix_of_whole cuts_numericAt.advances h
  | decimal => exact suffix_of_whole cuts_decimalAt.advances h
  | integer => exact suffix_of_whole cuts_integerAt.advances h
  | character => exact suffix_of_whole cuts_characterAt.advances h
  | string => exact suffix_of_whole cuts_stringAt.advances h
  | symbolString => exact suffix_of_whole cuts_symbolAt.advances h
  | singleQuotedString | doubleQuotedString | regularExpression =>
    exact suffix_of_whole (cuts_quotedAt _ (by decide) (by decide)).advances h
  | hereDoc => exact suffix_of_whole cuts_hereDocAt.advances h
  | keyValuePair => exact suffix_of_whole (advances_keyValueWith advances_objectAt) h
  | range => exact suffix_of_whole advances_rangeAt h
  | hashLiteral =>
    exact suffix_of_whole
      ((advances_delimitedWith _ _ (advances_keyValueWith advances_objectAt)).map Node.hash) h
  | list => exact suffix_of_whole ((advances_delimitedWith _ _ advances_objectAt).map Node.list) h
  | expressionTerminator => exact suffix_of_silent (fun _ => terminated?_suffix) h
  | sign | digit | space => exact suffix_of_silent (fun _ => dropChar?_suffix) h
  | digits => exact suffix_of_silent (fun _ => dropDigits?_suffix) h
  | whitespace => exact suffix_of_silent (fun _ => dropBlank?_suffix) h
  | eol => exact suffix_of_silent (fun _ => dropBreak?_suffix) h
  | whitespaces | spaces => exact suffix_of_silent suffix_of_run h
  | optionalWhitespaces | optionalSpaces | eols =>
    cases h
    exact List.dropWhile_suffix _
  | endOfInput =>
    cases cs with
    | nil =>
      cases h
      exact List.suffix_rfl
    | cons c cs => cases h

variable (cs)

/-- Every rule takes what the reader of its phrase reads. -/
lemma solved (x : Phrase) (hcs : cs <:+ t.chars.toList) : Solved t x cs := by
  cases x with
  | program => exact solved_program t cs
  | statement => exact solved_statement t cs
  | comment => exact solved_comment t cs
  | expression => exact solved_expression t cs hcs
  | expressionTerminator => exact solved_expressionTerminator t cs
  | object => exact solved_object t cs
  | simpleObject => exact solved_simpleObject t cs
  | recursiveObject => exact solved_recursiveObject t cs
  | nilLiteral => exact solved_nilLiteral t cs
  | boolean => exact solved_boolean t cs
  | trueLiteral => exact solved_trueLiteral t cs
  | falseLiteral => exact solved_falseLiteral t cs
  | numeric => exact solved_numeric t cs
  | decimal => exact solved_decimal t cs
  | integer => exact solved_integer t cs
  | sign => exact solved_sign t cs
  | digit => exact solved_digit t cs
  | digits => exact solved_digits t cs
  | character => exact solved_character t cs
  | string => exact solved_string t cs
  | symbolString => exact solved_symbolString t cs
  | singleQuotedString => exact solved_singleQuotedString t cs
  | doubleQuotedString => exact solved_doubleQuotedString t cs
  | hereDoc => exact solved_hereDoc t cs
  | regularExpression => exact solved_regularExpression t cs
  | keyValuePair => exact solved_keyValuePair t cs
  | range => exact solved_range t cs
  | hashLiteral => exact solved_hashLiteral t cs
  | list => exact solved_list t cs
  | whitespace => exact solved_whitespace t cs
  | whitespaces => exact solved_whitespaces t cs
  | optionalWhitespaces => exact solved_optionalWhitespaces t cs
  | space => exact solved_space t cs
  | spaces => exact solved_spaces t cs
  | optionalSpaces => exact solved_optionalSpaces t cs
  | eol => exact solved_eol t cs
  | eols => exact solved_eols t cs
  | endOfInput => exact solved_endOfInput t cs

end

/-- The readers solve the grammar. -/
theorem solves_grammar (text : String) : grammar.Solves (.ofString text) Phrase.read where
  suffix x _ piece h := x.read_suffix piece h
  body x cs hcs := by
    obtain ⟨scope, htakes⟩ := solved (.ofString text) cs x hcs
    refine ⟨body x, rfl, ?_⟩
    rw [takes] at htakes
    rw [htakes]
    cases x.read cs <;> rfl

end Packrat.Program
