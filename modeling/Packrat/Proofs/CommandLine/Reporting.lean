import Packrat.CommandLine.Report
import Packrat.Proofs.Matching.Descriptions
import Packrat.Proofs.Program.Safety
set_option autoImplicit false
set_option relaxedAutoImplicit false

/-!
# What the command line reports

A command line that asks for a file to be parsed names the file, and may choose the phrase to start
with and the format, in any order, each as two words or as one, and more than once. If the file can
be read, the command comes to what the parse of its text comes to: it prints the value and exits
with 0, or it reports the failure on one line and exits with 1. There is no other end.

## Main definitions

* `Packrat.CommandLine.Choice` — an option with its value, and how the two are written.
* `Packrat.CommandLine.asked` — what a row of options asks for.
* `Packrat.CommandLine.Prints` — what is printed of a value.
* `Packrat.CommandLine.breaksLine` — the characters at which a reader may break a line.

## Main results

* `Packrat.CommandLine.read_choices` — how such a command line is read.
* `Packrat.CommandLine.run_choices` — what such a command line comes to.
* `Packrat.CommandLine.run_faithful` — the command line reports what the parse comes to.
-/

namespace Packrat.CommandLine

open Program

/-! ## Options with their values -/

/-- The name of a format. -/
def Format.name : Format → String
  | .tree => "tree"
  | .tagged => "tagged"

/-- What an option sets. -/
inductive Setting where
  | startRule (x : Phrase)
  | format (f : Format)
  deriving DecidableEq

/-- The option that sets it. -/
def Setting.switch : Setting → Switch
  | .startRule _ => .startRule
  | .format _ => .format

/-- The value as it is written. -/
def Setting.value : Setting → String
  | .startRule x => x.name
  | .format f => f.name

/-- An option with its value, which is a word of its own or joined to the option. -/
structure Choice where
  setting : Setting
  joined : Bool
  deriving DecidableEq

/-- The words of a choice. -/
def Choice.words (c : Choice) : List String :=
  if c.joined then [c.setting.switch.long ++ "=" ++ c.setting.value]
  else [c.setting.switch.long, c.setting.value]

/-- What is asked for. -/
structure Asked where
  phrase : Phrase := .program
  format : Format := .tree

/-- Takes a setting in place of an earlier one. -/
def Asked.choose (a : Asked) : Setting → Asked
  | .startRule x => { a with phrase := x }
  | .format f => { a with format := f }

/-- What a row of choices asks for: the last one of a kind counts. -/
def asked (choices : List Choice) : Asked := choices.foldl (fun a c => a.choose c.setting) {}

/-! ## Reading the words -/

/-- The words that a choice is read as. -/
def Choice.read (c : Choice) : List Word :=
  if c.joined then [.long c.setting.switch (some c.setting.value)]
  else [.long c.setting.switch none, .operand c.setting.value]

/-- A word that does not begin with a dash is an operand. -/
lemma readWord_operand {word : String} (h : word.toList.head? ≠ some '-') :
    readWord word = .ok (.operand word) := by
  rw [readWord]
  split
  · rename_i hword
    exact absurd (congrArg List.head? hword) h
  · rename_i hword
    exact absurd (congrArg List.head? hword) h
  · rfl

/-- A word that does not begin with a dash does not end the options. -/
lemma ne_separator {word : String} (h : word.toList.head? ≠ some '-') : word ≠ "--" := by
  rintro rfl
  exact h rfl

/-- No value of a setting begins with a dash, so none of them is taken for an option. -/
lemma Setting.head?_value (s : Setting) : s.value.toList.head? ≠ some '-' := by
  cases s with
  | startRule x => cases x <;> decide
  | format f => cases f <;> decide

/-- The long form of each setting is an option without a value in the same word. -/
lemma Setting.readWord_long (s : Setting) : readWord s.switch.long = .ok (.long s.switch none) := by
  have hstart : readWord "--start-rule" = .ok (.long .startRule none) := rfl
  have hformat : readWord "--format" = .ok (.long .format none) := rfl
  cases s with
  | startRule x => exact hstart
  | format f => exact hformat

/-- No option is written with an equals sign. -/
lemma ofLong?_eq_none {word : String} (h : '=' ∈ word.toList) : Switch.ofLong? word = none := by
  refine List.find?_eq_none.2 fun o _ heq => ?_
  obtain rfl : o.long = word := by simpa using heq
  cases o <;> exact absurd h (by decide)

/-- So the first equals sign in a word that begins with an option ends the option. -/
lemma readWord_joined (o : Switch) (value : String) :
    readWord (o.long ++ "=" ++ value) = .ok (.long o (some value)) := by
  have hword : (o.long ++ "=" ++ value).toList = o.long.toList ++ '=' :: value.toList := by
    simp [String.toList_append]
  have hname : ∀ c ∈ o.long.toList, decide (c ≠ '=') = true :=
    List.all_eq_true.1 (by cases o <;> decide)
  obtain ⟨cs, hcs⟩ : ∃ cs, o.long.toList = '-' :: '-' :: cs := by cases o <;> exact ⟨_, rfl⟩
  have hlong : readWord (o.long ++ "=" ++ value) = readLong (o.long ++ "=" ++ value) := by
    rw [readWord, hword, hcs]
    rfl
  have hofLong : Switch.ofLong? o.long = some o := by cases o <;> rfl
  rw [hlong, readLong, ofLong?_eq_none (by simp [hword]), hword, List.takeWhile_append_of_pos hname,
    List.dropWhile_append_of_pos hname]
  simp [hofLong]

/-- A word in front of others is read on its own, unless it ends the options. -/
lemma readWords_cons {word : String} {words : List String} {first : Word} {others : List Word}
    (hne : word ≠ "--") (hfirst : readWord word = .ok first)
    (hothers : readWords words = .ok others) :
    readWords (word :: words) = .ok (first :: others) := by
  rw [readWords, if_neg hne, hfirst]
  change (readWords words >>= fun others => Except.ok (first :: others)) = _
  rw [hothers]
  rfl

/-- The words of a choice are read as that choice, whether they are one word or two. -/
lemma readWords_choice (c : Choice) {words : List String} {others : List Word}
    (hothers : readWords words = .ok others) :
    readWords (c.words ++ words) = .ok (c.read ++ others) := by
  obtain ⟨setting, joined⟩ := c
  cases joined with
  | true =>
    have hread := readWord_joined setting.switch setting.value
    refine readWords_cons ?_ hread hothers
    intro heq
    rw [heq] at hread
    cases hread
  | false =>
    refine readWords_cons ?_ setting.readWord_long
      (readWords_cons (ne_separator setting.head?_value) (readWord_operand setting.head?_value)
        hothers)
    intro heq
    have hread := setting.readWord_long
    rw [show setting.switch.long = "--" from heq] at hread
    cases hread

/-- The words of some choices are read as these choices, in order. -/
lemma readWords_choices {words : List String} {others : List Word}
    (hothers : readWords words = .ok others) :
    ∀ choices : List Choice,
      readWords (choices.flatMap Choice.words ++ words) =
        .ok (choices.flatMap Choice.read ++ others)
  | [] => hothers
  | c :: choices => by
    simp only [List.flatMap_cons, List.append_assoc]
    exact readWords_choice c (readWords_choices hothers choices)

/-! ## Taking the words -/

/-- Takes a setting in place of an earlier one. -/
def Options.choose (o : Options) : Setting → Options
  | .startRule x => { o with startRule := .named x.name }
  | .format f => { o with format := f }

/-- The value of a setting is accepted for its option, and chosen. -/
lemma Partial.value_setting (p : Partial) (s : Setting) :
    p.value s.switch s.value = .ok { p with options := p.options.choose s } := by
  cases s with
  | startRule x => cases x <;> rfl
  | format f => cases f <;> rfl

/-- What is read of a choice is taken as one more setting. -/
lemma takeWords_choice (p : Partial) (c : Choice) (words : List Word) :
    takeWords p (c.read ++ words) =
      takeWords { p with options := p.options.choose c.setting } words := by
  obtain ⟨setting, joined⟩ := c
  have htakes : setting.switch.takesValue = true := by cases setting <;> rfl
  cases joined with
  | true =>
    simp only [Choice.read, if_true, List.singleton_append, takeWords, p.value_setting setting]
    rfl
  | false =>
    simp only [Choice.read, Bool.false_eq_true, if_false, List.cons_append, List.nil_append,
      takeWords, htakes, if_true, p.value_setting setting]
    rfl

/-- What is read of some choices is taken as these settings, in order. -/
lemma takeWords_choices (words : List Word) : ∀ (choices : List Choice) (p : Partial),
    takeWords p (choices.flatMap Choice.read ++ words) =
      takeWords { p with options := choices.foldl (fun o c => o.choose c.setting) p.options } words
  | [], _ => rfl
  | c :: choices, p => by
    simp only [List.flatMap_cons, List.append_assoc, takeWords_choice,
      takeWords_choices words choices, List.foldl_cons]

/-- The first operand is the path, whatever options are behind it. -/
lemma takeWords_path (p : Partial) (hp : p.path = none) (path : String) (choices : List Choice) :
    takeWords p (.operand path :: choices.flatMap Choice.read) =
      takeWords { p with path := some path } (choices.flatMap Choice.read) := by
  have hoperand : p.operand path = { p with path := some path } := by rw [Partial.operand, hp]
  cases choices with
  | nil => simp only [List.flatMap_nil, takeWords, hoperand]
  | cons c choices =>
    obtain ⟨setting, _ | _⟩ := c <;>
      simp only [List.flatMap_cons, Choice.read, Bool.false_eq_true, if_true, if_false,
        List.cons_append, List.nil_append] <;>
      rw [takeWords, hoperand] <;> nofun

/-- A path and choices in front of it and behind it ask for a parse, with the last choice of each
kind. -/
theorem read_choices (before behind : List Choice) {path : String}
    (hpath : path.toList.head? ≠ some '-') :
    read (before.flatMap Choice.words ++ path :: behind.flatMap Choice.words) =
      .ok (.parse path ((before ++ behind).foldl (fun o c => o.choose c.setting) {})) := by
  have hbehind : readWords (behind.flatMap Choice.words) = .ok (behind.flatMap Choice.read) := by
    simpa using readWords_choices (show readWords [] = .ok [] from rfl) behind
  have hwords := readWords_choices
    (readWords_cons (ne_separator hpath) (readWord_operand hpath) hbehind) before
  have htake := takeWords_choices [] behind
  simp only [List.append_nil] at htake
  rw [read, hwords]
  change takeWords {} _ = _
  rw [takeWords_choices, takeWords_path _ rfl, htake, List.foldl_append]
  rfl

/-! ## What is asked for -/

/-- The options say what is asked for, and for no fuller log. -/
structure Options.Ask (o : Options) (a : Asked) : Prop where
  phrase : o.startRule.phrase = .ok a.phrase
  format : o.format = a.format
  verbosity : o.verbosity = 0

/-- One more choice keeps the options and what is asked for in agreement, if the phrase is listed.
-/
lemma Options.Ask.choose {o : Options} {a : Asked} (h : o.Ask a) {s : Setting}
    (hlisted : ∀ x, s = .startRule x → grammar.reachable? (.named .program) x.name = .ok (some x)) :
    (o.choose s).Ask (a.choose s) := by
  cases s with
  | startRule x =>
    refine ⟨?_, h.format, h.verbosity⟩
    simp only [Options.choose, Asked.choose, StartRule.phrase, hlisted x rfl]
    rfl
  | format f => exact ⟨h.phrase, rfl, h.verbosity⟩

/-- Choices in a row keep the options and what is asked for in agreement. -/
lemma Options.Ask.foldl : ∀ (choices : List Choice) {o : Options} {a : Asked}, o.Ask a →
    (∀ c ∈ choices, ∀ x, c.setting = .startRule x →
      grammar.reachable? (.named .program) x.name = .ok (some x)) →
    (choices.foldl (fun o c => o.choose c.setting) o).Ask
    (choices.foldl (fun a c => a.choose c.setting) a)
  | [], _, _, h, _ => h
  | c :: choices, _, _, h, hlisted =>
    foldl choices (h.choose (hlisted c List.mem_cons_self)) fun d hd =>
      hlisted d (List.mem_cons_of_mem c hd)

/-! ## What is printed -/

/-- At the level of warnings, a parse does not log anything. -/
lemma parseLogged_warning {ν α : Type} [DecidableEq ν] (g : Grammar ν α) (start : Rule ν α)
    (text : String) :
    g.parseLogged .warning true start text = (g.parse {} start text, []) := by
  simp only [Grammar.parseLogged]
  refine Prod.ext rfl (List.filter_eq_nil_iff.2 fun e he => ?_)
  rcases List.mem_append.1 he with he | he
  · obtain ⟨_, -, rfl⟩ := List.mem_map.1 he
    exact Bool.false_ne_true
  · unfold Grammar.outcomeEntries at he
    split at he
    · rcases List.mem_singleton.1 he with rfl
      exact Bool.false_ne_true
    · rcases List.mem_singleton.1 he with rfl
      exact Bool.false_ne_true
    · cases he

/-- If the file can be read, a command line comes to the report of the parse of its text. -/
theorem run_choices {before behind : List Choice} {path text : String} {follow : String → Target}
    (hpath : path.toList.head? ≠ some '-')
    (hlisted : ∀ c ∈ before ++ behind, ∀ x, c.setting = .startRule x →
      grammar.reachable? (.named .program) x.name = .ok (some x))
    (hreadable : sourceText path (follow path) = .ok text) :
    run (before.flatMap Choice.words ++ path :: behind.flatMap Choice.words) follow =
      match Program.parse text (asked (before ++ behind)).phrase with
      | .ok value =>
        { stdout := lines (printed (asked (before ++ behind)).format value), ending := .exit 0 }
      | .error (.failure failure) =>
        { stderr := path ++ ":" ++ failure.render ++ "\n", ending := .exit 1 }
      | .error (.flaw flaw) => { ending := .flawed flaw } := by
  have hask : Options.Ask ((before ++ behind).foldl (fun o c => o.choose c.setting) {})
      (asked (before ++ behind)) :=
    Options.Ask.foldl (before ++ behind) ⟨rfl, rfl, rfl⟩ hlisted
  have hlevel : Options.level ((before ++ behind).foldl (fun o c => o.choose c.setting) {}) =
      .warning := by
    rw [Options.level, hask.verbosity]
    rfl
  rw [run, read_choices before behind hpath]
  simp only [hask.phrase, hreadable, report, hlevel, parseLogged_warning, hask.format,
    Program.parse]
  rcases grammar.parse {} (.named (asked (before ++ behind)).phrase) text with
      (failure | flaw) | value <;>
    simp [lines]

/-- What is printed of a value in a format: the quoted text of a phrase that gives its text, and
otherwise the outlines of the nodes in order, or the tagged form, of which a row of nodes has a
list. -/
inductive Prints : Format → Value Node → String → Prop
  | text {format : Format} (text : String) : Prints format (.text text) (quote text ++ "\n")
  | outline (v : Node) : Prints .tree (.object v) (v.outlineText ++ "\n")
  | outlines (vs : List Node) :
      Prints .tree (.items (vs.map .object)) (String.join (vs.map (·.outlineText ++ "\n")))
  | tagged (v : Node) : Prints .tagged (.object v) (v.tagged.render ++ "\n")
  | taggedList (vs : List Node) :
      Prints .tagged (.items (vs.map .object)) ((Plain.list (vs.map Node.tagged)).render ++ "\n")

/-- The nodes of a row are those it was made from. -/
lemma trees_items (vs : List Node) : trees (.items (vs.map .object)) = vs := by
  rw [trees, List.filterMap_map]
  exact List.filterMap_some

/-- What is printed of the value of a parse. -/
lemma prints_printed {text : String} {value : Value Node} (h : Result text value)
    (format : Format) :
    Prints format value (lines (printed format value)) := by
  cases h with
  | text => simpa [printed, lines] using Prints.text text
  | node v =>
    cases format with
    | tree => simpa [printed, lines, trees] using Prints.outline v
    | tagged => simpa [printed, lines, taggedValue] using Prints.tagged v
  | nodes vs =>
    cases format with
    | tree => simpa [printed, lines, trees_items, Function.comp_def] using Prints.outlines vs
    | tagged => simpa [printed, lines, taggedValue, trees_items] using Prints.taggedList vs

/-! ## One line for a failure -/

/-- The characters at which a reader of lines may break them. -/
def breaksLine (c : Char) : Bool :=
  ['\n', '\r', '\x0b', '\x0c', '\x1c', '\x1d', '\x1e', '\u0085', '\u2028', '\u2029'].contains c

/-- Whatever may break a line is written with an escape. -/
lemma unprintable_of_breaksLine {c : Char} (h : breaksLine c = true) : isUnprintable c = true := by
  rw [breaksLine, List.contains_iff_mem] at h
  simp only [List.mem_cons, List.not_mem_nil, or_false] at h
  rcases h with rfl | rfl | rfl | rfl | rfl | rfl | rfl | rfl | rfl | rfl <;> decide +kernel

/-- The names of phrases for error messages are printable. -/
lemma printable_errorName (x : Phrase) (description : String)
    (h : (grammar.define x).errorName = some description) : IsPrintable description := by
  cases x <;> cases h <;> decide

/-- A failure is reported on one line, if the path is on one. -/
lemma breaksLine_report {path text : String} {x : Phrase} {failure : Failure}
    (hpath : ∀ c ∈ path.toList, breaksLine c = false)
    (h : Program.parse text x = .error (.failure failure)) :
    ∀ c ∈ (path ++ ":" ++ failure.render).toList, breaksLine c = false := by
  intro c hc
  have hprintable : IsPrintable failure.render := Grammar.printable_render printable_errorName h
  rw [String.toList_append, String.toList_append, List.mem_append, List.mem_append] at hc
  refine Bool.eq_false_iff.2 fun hbreaks => ?_
  have hunprintable := unprintable_of_breaksLine hbreaks
  rcases hc with (hc | hc) | hc
  · exact Bool.false_ne_true ((hpath c hc).symm.trans hbreaks)
  · rcases List.mem_singleton.1 hc with rfl
    cases hbreaks
  · exact Bool.false_ne_true ((hprintable c hc).symm.trans hunprintable)

/-- The command line reports what the parse comes to.

It names a file whose text can be read, and perhaps a phrase of the grammar to start with and a
format; it asks for no fuller log. Then the command exits with 0 or 1, and does not end in any other
way. It exits with 0 just if the phrase parses the text: then nothing is printed but the value, as
its kind and the format have it. It exits with 1 just if the parse fails: then nothing is printed
but one line with the path, the line, the column and the message. -/
theorem run_faithful {before behind : List Choice} {path text : String} {follow : String → Target}
    (hpath : path.toList.head? ≠ some '-') (hline : ∀ c ∈ path.toList, breaksLine c = false)
    (hlisted : ∀ c ∈ before ++ behind, ∀ x, c.setting = .startRule x →
      grammar.reachable? (.named .program) x.name = .ok (some x))
    (hreadable : sourceText path (follow path) = .ok text) :
    let report := run (before.flatMap Choice.words ++ path :: behind.flatMap Choice.words) follow
    let outcome := Program.parse text (asked (before ++ behind)).phrase
    (report.ending = .exit 0 ∨ report.ending = .exit 1) ∧
      (report.ending = .exit 0 ↔ ∃ value, outcome = .ok value) ∧
      (∀ value, outcome = .ok value →
        report.stderr = "" ∧ Prints (asked (before ++ behind)).format value report.stdout) ∧
      (report.ending = .exit 1 ↔ ∃ failure, outcome = .error (.failure failure)) ∧
      ∀ failure, outcome = .error (.failure failure) → report.stdout = "" ∧ ∃ line,
        line = path ++ ":" ++
          (toString failure.location.line ++ ":" ++ toString failure.location.column ++ ": " ++
          failure.message) ∧
        report.stderr = line ++ "\n" ∧ ∀ c ∈ line.toList, breaksLine c = false := by
  intro report outcome
  have hreport := run_choices hpath hlisted hreadable
  rcases (solves_grammar text).parse_failure_or_ok {} (asked (before ++ behind)).phrase with
    ⟨failure, hfailure⟩ | ⟨produced, hread, hok⟩
  · have houtcome : outcome = .error (.failure failure) := hfailure
    have hrun : report = ⟨"", path ++ ":" ++ failure.render ++ "\n", .exit 1⟩ := by
      rw [show Program.parse text (asked (before ++ behind)).phrase = _ from houtcome] at hreport
      exact hreport
    rw [houtcome, hrun]
    refine ⟨.inr rfl, ⟨nofun, nofun⟩, nofun, ⟨fun _ => ⟨failure, rfl⟩, fun _ => rfl⟩, ?_⟩
    rintro _ ⟨⟩
    exact ⟨rfl, _, rfl, rfl, breaksLine_report hline houtcome⟩
  · have houtcome : outcome = .ok (produced.getD (.text text)) := hok
    have hrun : report =
        ⟨lines (printed (asked (before ++ behind)).format (produced.getD (.text text))), "",
          .exit 0⟩ := by
      rw [show Program.parse text (asked (before ++ behind)).phrase = _ from houtcome] at hreport
      exact hreport
    rw [houtcome, hrun]
    refine ⟨.inl rfl, ⟨fun _ => ⟨_, rfl⟩, fun _ => rfl⟩, ?_, ⟨nofun, nofun⟩, nofun⟩
    rintro _ ⟨⟩
    exact ⟨rfl, prints_printed (Phrase.result_of_read hread) _⟩

/-- A list that is not closed, in a file with another line break. -/
theorem run_faithful_list :
    let report :=
      run ["--start-rule=list", "a.rip", "--format", "tagged"] fun _ => .file "[nil\r".toUTF8
    report.ending = .exit 1 ∧ report.stdout = "" ∧ report.stderr =
      "a.rip:2:0: Syntax Error: Unexpected end of file. Expected one of: ' ', ',', '\\t', ']', end of line\n" := by
  intro report
  have hlisted : ∀ c ∈ [(⟨.startRule .list, true⟩ : Choice)] ++ [⟨.format .tagged, false⟩], ∀ x,
      c.setting = .startRule x → grammar.reachable? (.named .program) x.name = .ok (some x) := by
    rintro c hc x hx
    obtain rfl | rfl : c = ⟨.startRule .list, true⟩ ∨ c = ⟨.format .tagged, false⟩ := by
      simpa using hc
    · cases hx
      rfl
    · cases hx
  have hline : ("a.rip".toList.all fun c => !breaksLine c) = true := by decide
  obtain ⟨-, -, -, hexit, hfailure⟩ :=
    @run_faithful [⟨.startRule .list, true⟩] [⟨.format .tagged, false⟩]
    "a.rip" "[nil\n" (fun _ => .file "[nil\r".toUTF8) (by decide)
    (fun c hc => by simpa using List.all_eq_true.1 hline c hc) hlisted rfl
  have hparse : (match Program.parse "[nil\n" .list with
      | .error (.failure failure) =>
        decide (failure.render = "2:0: Syntax Error: Unexpected end of file. " ++
          "Expected one of: ' ', ',', '\\t', ']', end of line")
      | _ => false) = true := by decide +kernel
  cases houtcome : Program.parse "[nil\n" .list with
  | ok value => simp [houtcome] at hparse
  | error error =>
    cases error with
    | flaw flaw => simp [houtcome] at hparse
    | failure failure =>
      rw [houtcome] at hparse
      have hrender : failure.render = _ := of_decide_eq_true hparse
      obtain ⟨hstdout, line, rfl, hstderr, -⟩ := hfailure failure houtcome
      refine ⟨hexit.2 ⟨failure, houtcome⟩, hstdout, hstderr.trans ?_⟩
      change "a.rip" ++ ":" ++ failure.render ++ "\n" = _
      rw [hrender]
      rfl

end Packrat.CommandLine
