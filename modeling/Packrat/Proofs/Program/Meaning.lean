import Packrat.Program.Grammar
import Packrat.Proofs.Matching.Solution
import Packrat.Proofs.Program.Statement
set_option autoImplicit false
set_option relaxedAutoImplicit false

/-!
# What the phrases of a program take

Every phrase has a reader. What a rule of the grammar takes, once the named rules in it take what
their readers read, follows from its form.

## Main definitions

* `Packrat.Program.Phrase.read` — what each phrase takes.

## Main results

* `Packrat.Program.takes_phrases`, `Packrat.Program.takes_literals` — what alternatives take.
* `Packrat.Program.takes_chars` — what repetitions of a single character take.
-/

namespace Packrat.Program

/-- Characters that are passed over. -/
def silent (left : Option (List Char)) : Option (Piece Node) := left.map fun rest => ⟨none, rest⟩

/-- A node that is read. -/
def whole (read : Option (Node × List Char)) : Option (Piece Node) :=
  read.map fun (node, rest) => ⟨some (.object node), rest⟩

/-- What a row of statements is as a value: a single one is no list. -/
def statementValue : List Node → Option (Value Node)
  | [] => none
  | [node] => some (.object node)
  | nodes => some (.items (nodes.map .object))

/-- What each phrase takes. -/
def Phrase.read : Phrase → List Char → Option (Piece Node)
  | .program, cs => whole (some (programAt cs))
  | .statement, cs => (statementAt cs).map fun (nodes, rest) => ⟨statementValue nodes, rest⟩
  | .comment, cs => whole (commentAt cs)
  | .expression, cs => whole (expressionAt cs)
  | .expressionTerminator, cs => silent (terminated? cs)
  | .object, cs => whole (objectAt cs)
  | .simpleObject, cs => whole (simpleAt cs)
  | .recursiveObject, cs => whole (compositeWith objectAt cs)
  | .nilLiteral, cs => whole (nilAt cs)
  | .boolean, cs => whole (booleanAt cs)
  | .trueLiteral, cs => whole (trueAt cs)
  | .falseLiteral, cs => whole (falseAt cs)
  | .numeric, cs => whole (numericAt cs)
  | .decimal, cs => whole (decimalAt cs)
  | .integer, cs => whole (integerAt cs)
  | .sign, cs => silent (dropChar? (fun c => c == '+' || c == '-') cs)
  | .digit, cs => silent (dropChar? digitSet.contains cs)
  | .digits, cs => silent (dropDigits? cs)
  | .character, cs => whole (characterAt cs)
  | .string, cs => whole (stringAt cs)
  | .symbolString, cs => whole (symbolAt cs)
  | .singleQuotedString, cs => whole (quotedAt '\x27' .string cs)
  | .doubleQuotedString, cs => whole (quotedAt '\x22' .string cs)
  | .hereDoc, cs => whole (hereDocAt cs)
  | .regularExpression, cs => whole (regexAt cs)
  | .keyValuePair, cs => whole (keyValueWith objectAt cs)
  | .range, cs => whole (rangeAt cs)
  | .hashLiteral, cs => whole (hashWith objectAt cs)
  | .list, cs => whole (listWith objectAt cs)
  | .whitespace, cs => silent (dropBlank? cs)
  | .whitespaces, cs => silent ((dropBlank? cs).map fun _ => cs.dropWhile isBlank)
  | .optionalWhitespaces, cs => silent (some (cs.dropWhile isBlank))
  | .space, cs => silent (dropChar? isSpace cs)
  | .spaces, cs => silent ((dropChar? isSpace cs).map fun _ => cs.dropWhile isSpace)
  | .optionalSpaces, cs => silent (some (cs.dropWhile isSpace))
  | .eol, cs => silent (dropBreak? cs)
  | .eols, cs => silent (some (cs.dropWhile endsLine))
  | .endOfInput, cs => silent (if cs = [] then some [] else none)

/-- What a rule takes in a given text. -/
def takes (t : Text) (rule : Pattern) (scope : Scope) (cs : List Char) :
    Outcome Node (Taken Node) := rule.take grammar t.lineStartsAt Phrase.read scope cs

/-- What rules take one behind the other in a given text. -/
def takesParts (t : Text) (rules : List Pattern) (scope : Scope) (cs : List Char) :
    Outcome Node (TakenRow Node) :=
  Rule.take.takeParts grammar t.lineStartsAt Phrase.read rules scope cs

/-- A piece is taken if there is one. -/
def taken (scope : Scope) : Option (Piece Node) → Outcome Node (Taken Node)
  | none => .unmatched
  | some piece => .matched ⟨piece, scope⟩

/-- The rule of a phrase takes what the reader of the phrase reads. -/
def Solved (t : Text) (x : Phrase) (cs : List Char) : Prop :=
  ∃ scope, takes t (body x) [] cs = taken scope (x.read cs)

/-! ## Forms of rules -/

section

variable (t : Text) (scope : Scope) (cs : List Char)

/-- Where nothing is left, nothing is taken. -/
@[simp] lemma silent_none : silent none = none := rfl

/-- What takes characters silently has no value. -/
@[simp] lemma silent_some (rest : List Char) : silent (some rest) = some ⟨none, rest⟩ := rfl

/-- Where no node is read, nothing is taken. -/
@[simp] lemma whole_none : whole none = none := rfl

/-- The value of what is read is its node. -/
@[simp] lemma whole_some (node : Node) (rest : List Char) :
    whole (some (node, rest)) = some ⟨some (.object node), rest⟩ := rfl

/-- Where there is no piece, the rule does not match. -/
@[simp] lemma taken_none : taken scope none = .unmatched := rfl

/-- A piece that is there is what the rule matches. -/
@[simp] lemma taken_some (piece : Piece Node) :
    taken scope (some piece) = .matched ⟨piece, scope⟩ := rfl

/-- Of two ways to take characters silently, the first that succeeds is taken. -/
lemma silent_or (left other : Option (List Char)) :
    silent (left.or other) = (silent left).or (silent other) := by
  cases left <;> rfl

/-- Of two readers, the first that reads a node is taken. -/
lemma whole_or (read other : Option (Node × List Char)) :
    whole (read.or other) = (whole read).or (whole other) := by
  cases read <;> rfl

/-- Behind a match, the rule goes on with its result. -/
@[simp] lemma andThen_matched {β γ : Type} (result : β) (next : β → Outcome Node γ) :
    (Outcome.matched result).andThen next = next result := rfl

/-- Without a match, the rule does not go on. -/
@[simp] lemma andThen_unmatched {β γ : Type} (next : β → Outcome Node γ) :
    (Outcome.unmatched : Outcome Node β).andThen next = .unmatched := rfl

/-- A change of the result is a change of what is matched. -/
@[simp] lemma map_matched {β γ : Type} (result : β) (f : β → γ) :
    (Outcome.matched result : Outcome Node β).map f = .matched (f result) := rfl

/-- There is no result to change without a match. -/
@[simp] lemma map_unmatched {β γ : Type} (f : β → γ) :
    (Outcome.unmatched : Outcome Node β).map f = .unmatched := rfl

/-- What takes characters silently is a piece without a value. -/
lemma takeSilently_eq (left : Option (List Char)) :
    takeSilently scope left = taken scope (silent left) := by
  cases left <;> rfl

/-- A named rule takes what its phrase reads. -/
@[simp] lemma takes_named (x : Phrase) :
    takes t (.named x) scope cs = taken scope (x.read cs) := by
  simp only [takes, Rule.take]
  cases x.read cs <;> rfl

/-- A literal takes its characters silently. -/
@[simp] lemma takes_literal (s : String) :
    takes t (.literal s) scope cs = taken scope (silent (cs.dropPrefix? s.toList)) :=
  takeSilently_eq scope _

/-- A set of characters takes one of them silently. -/
@[simp] lemma takes_charSet (set : CharSet) :
    takes t (.charSet set) scope cs = taken scope (silent (dropChar? set.contains cs)) :=
  takeSilently_eq scope _

/-- Any character is taken silently. -/
@[simp] lemma takes_any :
    takes t .any scope cs = taken scope (silent (dropChar? (fun _ => true) cs)) :=
  takeSilently_eq scope _

/-- A row of no rules takes nothing. -/
@[simp] lemma takesParts_nil :
    takesParts t [] scope cs = .matched ⟨[], cs, scope⟩ := rfl

/-- A row of rules takes what the first takes, and the others behind it. -/
@[simp] lemma takesParts_cons (rule : Pattern) (rules : List Pattern) :
    takesParts t (rule :: rules) scope cs =
      (takes t rule scope cs).andThen fun first =>
        (takesParts t rules first.scope first.rest).map fun others =>
          { others with values := first.value :: others.values } := rfl

/-- A sequence takes a row, and merges the values of its parts. -/
@[simp] lemma takes_sequence (rules : List Pattern) :
    takes t (.sequence rules) scope cs =
      (takesParts t rules scope cs).andThen fun row =>
        match mergeValues row.values with
        | .error values => .stopped (.flaw (.mixture values))
        | .ok value => .matched ⟨⟨value, row.rest⟩, row.scope⟩ := by
  simp only [takes, Rule.take, takesParts]
  refine congrArg _ (funext fun row => ?_)
  cases mergeValues row.values <;> rfl

/-- A capture makes a field of the value of its rule, or of the text that the rule takes. -/
@[simp] lemma takes_capture (name : String) (rule : Pattern) :
    takes t (.capture name rule) scope cs =
      (takes t rule scope cs).map fun taken =>
        ⟨⟨some (.fields [(name, taken.value.getD (.text (String.ofList (front cs taken.rest))))]),
          taken.rest⟩, taken.scope⟩ := rfl

/-- What is built is made from the value of the rule, or is refused. -/
@[simp] lemma takes_build (builder : Builder Node) (rule : Pattern) :
    takes t (.build builder rule) scope cs =
      (takes t rule scope cs).andThen fun taken =>
        match builder.make (.ofProduct taken.value) with
        | .error refusal => .stopped (.flaw (.refused refusal))
        | .ok value => .matched ⟨⟨value, taken.rest⟩, taken.scope⟩ := by
  simp only [takes, Rule.take]
  refine congrArg _ (funext fun taken => ?_)
  cases builder.make (.ofProduct taken.value) <;> rfl

/-- A binding takes what its rule takes, and binds the text of it. -/
@[simp] lemma takes_bind (name : String) (rule : Pattern) :
    takes t (.bind name rule) scope cs =
      (takes t rule scope cs).map fun taken =>
        { taken with scope := (name, String.ofList (front cs taken.rest)) :: taken.scope } := rfl

/-- A back-reference takes the characters that are bound under its name. -/
lemma takes_backref {name bound : String} (h : scope.lookup name = some bound) :
    takes t (.backref name) scope cs = taken scope (silent (cs.dropPrefix? bound.toList)) := by
  rw [takes, Rule.take, h]
  exact takeSilently_eq scope _

/-- An option takes what its rule takes, or nothing. -/
lemma takes_optional {rule : Pattern} {piece : Option (Piece Node)}
    (h : takes t rule scope cs = taken scope piece) :
    takes t (.optional rule) scope cs = taken scope (some (piece.getD ⟨none, cs⟩)) := by
  rw [takes] at h ⊢
  rw [Rule.take, h]
  cases piece <;> rfl

/-- A lookahead takes nothing, where its rule is there or is not. -/
lemma takes_lookahead {rule : Pattern} {piece : Option (Piece Node)} (negative : Bool)
    (h : takes t rule scope cs = taken scope piece) :
    takes t (.lookahead negative rule) scope cs =
      taken scope (silent (if piece.isSome = negative then none else some cs)) := by
  rw [takes] at h ⊢
  rw [Rule.take, h]
  cases piece <;> cases negative <;> rfl

end

/-! ## What sequences and builders make -/

/-- There is nothing to merge among no values. -/
@[simp] lemma mergeValues_nil : mergeValues ([] : List (Option (Value Node))) = .ok none := rfl

/-- A part without a value adds nothing to the others, in front. -/
@[simp] lemma mergeValues_none (values : List (Option (Value Node))) :
    mergeValues (none :: values) = mergeValues values := rfl

/-- A part without a value adds nothing to the others, in the second place. -/
@[simp] lemma mergeValues_none_second (value : Option (Value Node))
    (values : List (Option (Value Node))) :
    mergeValues (value :: none :: values) = mergeValues (value :: values) := rfl

/-- A field on its own is the value of the row. -/
@[simp] lemma mergeValues_field (name : String) (value : Value Node) :
    mergeValues [some (.fields [(name, value)])] = .ok (some (.fields [(name, value)])) := rfl

/-- A list on its own is the value of the row. -/
@[simp] lemma mergeValues_items (values : List (Value Node)) :
    mergeValues [some (.items values)] = .ok (some (.items values)) := by
  rcases values with _ | ⟨_, _ | _⟩ <;> rfl

/-- A node in front of a list is its first item. -/
@[simp] lemma mergeValues_object_items (node : Node) (values : List (Value Node)) :
    mergeValues [some (.object node), some (.items values)] =
      .ok (some (.items (.object node :: values))) := by
  cases values <;> rfl

/-- A node on its own is the value of the row. -/
@[simp] lemma mergeValues_object (node : Node) :
    mergeValues [some (.object node)] = .ok (some (.object node)) := rfl

/-- A builder that is given nothing makes the node it stands for. -/
@[simp] lemma constant_make (name : String) (node : Node) :
    (Assembly.constant name node).make (.ofProduct none) = .ok (some (.object node)) := rfl

/-- A builder that is given a text makes a node of it. -/
@[simp] lemma ofText_make (name field text : String) (make : String → Node) :
    (Assembly.ofText name field make).make (.ofProduct (some (.fields [(field, .text text)]))) =
      .ok (some (.object (make text))) := by
  simp [Assembly.ofText, Assembly.ofFields, Arguments.ofProduct]

/-- The nodes of a row of objects are those it was made from. -/
lemma nodes?_map_object (nodes : List Node) : nodes? (nodes.map .object) = some nodes := by
  induction nodes with
  | nil => rfl
  | cons node nodes ih => simp [nodes?, ih]

/-- A builder that is given a row of objects makes a node of them. -/
@[simp] lemma ofNodes_make (name field : String) (nodes : List Node) (make : List Node → Node) :
    (Assembly.ofNodes name field make).make
        (.ofProduct (some (.fields [(field, .items (nodes.map .object))]))) =
      .ok (some (.object (make nodes))) := by
  simp [Assembly.ofNodes, Assembly.ofFields, Arguments.ofProduct, nodes?_map_object]

/-! ## Alternatives -/

section

variable (cs : List Char)

/-- A prefix of one character is taken if the text starts with it. -/
lemma dropPrefix?_singleton (c : Char) : cs.dropPrefix? [c] = dropChar? (· == c) cs := by
  cases cs with
  | nil => rfl
  | cons d cs => simp [List.dropPrefix?, dropChar?]

/-- A character that passes either test is taken if one of them takes it. -/
lemma dropChar?_or (test other : Char → Bool) :
    (dropChar? test cs).or (dropChar? other cs) = dropChar? (fun c => test c || other c) cs := by
  cases cs with
  | nil => rfl
  | cons c cs => cases h : test c <;> simp [dropChar?, h]

/-- A literal of one character. -/
lemma takes_mark (t : Text) (scope : Scope) (c : Char) :
    takes t (.literal (String.singleton c)) scope cs =
      taken scope (silent (dropChar? (· == c) cs)) := by
  rw [takes_literal, String.toList_singleton, dropPrefix?_singleton]

end

section

variable {t : Text} {scope : Scope} {cs : List Char}

/-- A choice without alternatives takes nothing. -/
lemma takes_choice_nil : takes t (.choice []) scope cs = taken scope none := rfl

/-- A choice takes what its first alternative takes, or else what the others take. -/
lemma takes_choice_cons {rule : Pattern} {rules : List Pattern}
    {piece other : Option (Piece Node)} (h : takes t rule scope cs = taken scope piece)
    (h' : takes t (.choice rules) scope cs = taken scope other) :
    takes t (.choice (rule :: rules)) scope cs = taken scope (piece.or other) := by
  simp only [takes, Rule.take, Rule.take.takeChoice] at h h' ⊢
  rw [h]
  cases piece with
  | none => exact h'
  | some piece => rfl

variable (t scope cs)

/-- A choice of phrases takes what the first of them takes that matches. -/
lemma takes_phrases : ∀ xs : List Phrase,
    takes t (.choice (xs.map .named)) scope cs =
      taken scope (xs.foldr (fun x other => (x.read cs).or other) none)
  | [] => takes_choice_nil
  | x :: xs => takes_choice_cons (takes_named t scope cs x) (takes_phrases xs)

/-- A choice of texts takes the first of them that is ahead. -/
lemma takes_literals : ∀ texts : List String,
    takes t (.choice (texts.map .literal)) scope cs =
      taken scope (silent (texts.foldr (fun s other => (cs.dropPrefix? s.toList).or other) none))
  | [] => takes_choice_nil
  | s :: texts => by
    refine (takes_choice_cons (takes_literal t scope cs s) (takes_literals texts)).trans ?_
    rw [← silent_or, List.foldr_cons]

end

/-! ## Repetitions -/

section

variable {t : Text} {scope : Scope} {rule : Pattern}

/-- A repetition passes over all characters that satisfy a test. -/
lemma takes_chars {test : Char → Bool} (hp : grammar.produces rule = .ok false)
    (h : ∀ cs, takes t rule scope cs = taken scope (silent (dropChar? test cs))) (cs : List Char) :
    takes t (.repetition rule 0 none) scope cs =
        taken scope (silent (some (cs.dropWhile test))) ∧
      takes t (.repetition rule 1 none) scope cs =
        taken scope (silent ((dropChar? test cs).map fun _ => cs.dropWhile test)) := by
  have hstep : ∀ cs, takes t rule scope cs =
      takenOf (fun _ => none) scope (charStep test cs) := by
    intro cs
    rw [h, charStep]
    cases dropChar? test cs <;> rfl
  constructor
  · rw [takes, Rule.take_zeroOrMore hp (advances_charStep test) hstep, many_charStep,
      takeSilently_eq]
  · rw [takes, Rule.take_oneOrMore hp (advances_charStep test) hstep, many_charStep,
      takeSilently_eq, charStep, Option.map_map]
    rfl

/-- Any character but where a rule matches. -/
lemma takes_unless {test : Char → Bool} {piece : List Char → Option (Piece Node)}
    (h : ∀ cs, takes t rule scope cs = taken scope (piece cs))
    (hp : ∀ cs, (piece cs).isSome = cs.head?.any test) (cs : List Char) :
    takes t (.sequence [.lookahead true rule, .any]) scope cs =
      taken scope (silent (dropChar? (!test ·) cs)) := by
  simp only [takes_sequence, takesParts_cons, takesParts_nil,
    takes_lookahead t scope cs true (h cs), hp, takes_any]
  cases cs with
  | nil => rfl
  | cons c cs => cases hc : test c <;> simp [dropChar?, hc]

end

end Packrat.Program
