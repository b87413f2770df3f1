import Mathlib.Tactic.Lemma
import Packrat.Rule.Combine
import Packrat.Rule.Notation
set_option autoImplicit false
set_option relaxedAutoImplicit false

/-!
# Rules as their notation is read

In the notation of parsing expressions, what stands behind a rule belongs to what is closest in
front of it, so `!a?` is the lookahead of an optional `a`. But an optional lookahead is shown in the
same way, as parentheses are put around sequences, choices and built rules only. The *standard form*
of a rule is the rule that its notation is read as: suffixes move inwards past lookaheads, captures
and bindings, and a choice without alternatives becomes the sequence without parts.

## Main definitions

* `Packrat.Rule.Suffix`, `Packrat.Rule.wrap` — repetition and option as what stands behind a rule.
* `Packrat.Rule.standard` — the standard form of a rule.
* `Packrat.Rule.spelled` — the characters of a rule inside another one, with suffixes behind it.
* `Packrat.Rule.Composed` — the rules that are put together by the functions for it.
* `Packrat.Rule.Regular` — the forms that these have.

## Main results

* `Packrat.Rule.render_standard` — a rule and its standard form have the same notation.
* `Packrat.Rule.Composed.regular` — composed rules are regular.
-/

namespace Packrat.Rule

variable {ν α : Type}

/-! ## Standard forms -/

/-- What stands behind a rule in notation. -/
inductive Suffix where
  | bounds (least : Int) (most : Option Int)
  | optional
  deriving DecidableEq

namespace Suffix

/-- The characters of a suffix. -/
def chars : Suffix → List Char
  | .bounds least most => (renderBounds least most).toList
  | .optional => ['?']

/-- The rule that a suffix makes of the one in front of it. -/
def around : Suffix → Rule ν α → Rule ν α
  | .bounds least most, rule => .repetition rule least most
  | .optional, rule => .optional rule

end Suffix

/-- A rule with suffixes behind it, the closest one first. -/
def wrap (rule : Rule ν α) (ss : List Suffix) : Rule ν α :=
  ss.foldl (fun rule s => s.around rule) rule

/-- A row of alternatives, or of parts. Without any, the notation is that of a sequence. -/
def row (isChoice : Bool) (rules : List (Rule ν α)) : Rule ν α :=
  if isChoice && !rules.isEmpty then .choice rules else .sequence rules

/-- The standard form of a rule with suffixes behind it. -/
def standardWith : Rule ν α → List Suffix → Rule ν α
  | .repetition rule least most, ss => standardWith rule (.bounds least most :: ss)
  | .optional rule, ss => standardWith rule (.optional :: ss)
  | .lookahead negative rule, ss => .lookahead negative (standardWith rule ss)
  | .capture name rule, ss => .capture name (standardWith rule ss)
  | .bind name rule, ss => .bind name (standardWith rule ss)
  | .sequence rules, ss => wrap (row false (standardParts rules)) ss
  | .choice rules, ss => wrap (row true (standardParts rules)) ss
  | rule, ss => wrap rule ss
where
  /-- The standard forms of the parts of a sequence or choice. -/
  standardParts : List (Rule ν α) → List (Rule ν α)
    | [] => []
    | rule :: rules => standardWith rule [] :: standardParts rules

/-- The standard form of a rule. -/
def standard (rule : Rule ν α) : Rule ν α := rule.standardWith []

/-- The standard forms of parts are those of each of them, in order. -/
lemma standardParts_eq :
    ∀ rules : List (Rule ν α), standardWith.standardParts rules = rules.map standard
  | [] => rfl
  | _ :: rules => congrArg _ (standardParts_eq rules)

/-! ## The characters of rules -/

section Spelling

variable (nameOf : ν → String)

/-- The characters of suffixes one behind the other. -/
def suffixChars (ss : List Suffix) : List Char := ss.flatMap Suffix.chars

/-- The characters of a rule inside another one, with suffixes behind it. -/
def spelled (rule : Rule ν α) (ss : List Suffix) : List Char :=
  (parenthesise rule.isCompound (rule.render nameOf)).toList ++ suffixChars ss

/-- What stands between two alternatives, or between two parts. -/
def separator (isChoice : Bool) : List Char := if isChoice then [' ', '/', ' '] else [' ']

/-- The characters of a row of rules. -/
def spelledRow (isChoice : Bool) (rules : List (Rule ν α)) : List Char :=
  (separator isChoice).intercalate (rules.map (spelled nameOf · []))

/-- The notations of parts are spelled one by one. -/
lemma renderParts_eq : ∀ rules : List (Rule ν α),
    (render.renderParts nameOf rules).map String.toList = rules.map (spelled nameOf · [])
  | [] => rfl
  | rule :: rules => by
    rw [render.renderParts, List.map_cons, List.map_cons, renderParts_eq rules, spelled,
      suffixChars, List.flatMap_nil, List.append_nil]

/-- The notation of a sequence is the row of its parts. -/
lemma toList_render_sequence (rules : List (Rule ν α)) :
    (render nameOf (.sequence rules)).toList = spelledRow nameOf false rules := by
  rw [render, String.toList_intercalate, renderParts_eq]
  rfl

/-- The notation of a choice is the row of its alternatives. -/
lemma toList_render_choice (rules : List (Rule ν α)) :
    (render nameOf (.choice rules)).toList = spelledRow nameOf true rules := by
  rw [render, String.toList_intercalate, renderParts_eq]
  rfl

/-- A literal is spelled as its text in quotation marks, with the suffixes behind it. -/
lemma spelled_literal (s : String) (ss : List Suffix) :
    spelled nameOf (.literal s : Rule ν α) ss = (quote s).toList ++ suffixChars ss := rfl

/-- A named rule is spelled as its name, with the suffixes behind it. -/
lemma spelled_named (x : ν) (ss : List Suffix) :
    spelled nameOf (.named x : Rule ν α) ss = (nameOf x).toList ++ suffixChars ss := rfl

/-- A repetition is its rule with one more suffix behind it. -/
lemma spelled_repetition (rule : Rule ν α) (least : Int) (most : Option Int) (ss : List Suffix) :
    spelled nameOf (.repetition rule least most) ss =
      spelled nameOf rule (.bounds least most :: ss) := by
  simp only [spelled, isCompound, parenthesise, Bool.false_eq_true, if_false, render,
    String.toList_append, suffixChars, List.flatMap_cons, Suffix.chars, List.append_assoc]

/-- An option is its rule with one more suffix behind it. -/
lemma spelled_optional (rule : Rule ν α) (ss : List Suffix) :
    spelled nameOf (.optional rule) ss = spelled nameOf rule (.optional :: ss) := by
  simp only [spelled, isCompound, parenthesise, Bool.false_eq_true, if_false, render,
    String.toList_append, suffixChars, List.flatMap_cons, Suffix.chars, List.append_assoc]
  rfl

/-- A lookahead is its sign in front of its rule, and the suffixes stand behind that. -/
lemma spelled_lookahead (negative : Bool) (rule : Rule ν α) (ss : List Suffix) :
    spelled nameOf (.lookahead negative rule) ss =
      (if negative then '!' else '&') :: spelled nameOf rule ss := by
  cases negative <;>
    simp only [spelled, isCompound, parenthesise, Bool.false_eq_true, if_false, if_true, render,
      String.toList_append, List.append_assoc] <;> rfl

/-- A capture is its name and a colon in front of its rule, and the suffixes stand behind that. -/
lemma spelled_capture (name : String) (rule : Rule ν α) (ss : List Suffix) :
    spelled nameOf (.capture name rule) ss = name.toList ++ ':' :: spelled nameOf rule ss := by
  simp only [spelled, isCompound, parenthesise, Bool.false_eq_true, if_false, render,
    String.toList_append, List.append_assoc]
  rfl

/-- A binding is its name and an equals sign in front of its rule, and the suffixes stand behind
that. -/
lemma spelled_bind (name : String) (rule : Rule ν α) (ss : List Suffix) :
    spelled nameOf (.bind name rule) ss = name.toList ++ '=' :: spelled nameOf rule ss := by
  simp only [spelled, isCompound, parenthesise, Bool.false_eq_true, if_false, render,
    String.toList_append, List.append_assoc]
  rfl

/-- A sequence with suffixes is its row in parentheses, and the suffixes stand behind them. -/
lemma spelled_sequence (rules : List (Rule ν α)) (ss : List Suffix) :
    spelled nameOf (.sequence rules) ss = '(' ::
      (spelledRow nameOf false rules ++ ')' :: suffixChars ss) := by
  simp only [spelled, isCompound, parenthesise, if_true, String.toList_append,
    toList_render_sequence, List.append_assoc]
  rfl

/-- A choice with suffixes is its row in parentheses, and the suffixes stand behind them. -/
lemma spelled_choice (rules : List (Rule ν α)) (ss : List Suffix) :
    spelled nameOf (.choice rules) ss = '(' ::
      (spelledRow nameOf true rules ++ ')' :: suffixChars ss) := by
  simp only [spelled, isCompound, parenthesise, if_true, String.toList_append, toList_render_choice,
    List.append_assoc]
  rfl

/-- Rows of both kinds with suffixes are spelled in parentheses, and the suffixes stand behind them.
-/
lemma spelled_row (isChoice : Bool) (rules : List (Rule ν α)) (ss : List Suffix) :
    spelled nameOf (row isChoice rules) ss =
      '(' :: (spelledRow nameOf isChoice rules ++ ')' :: suffixChars ss) := by
  rw [row]
  split
  · rename_i h
    rw [Bool.and_eq_true] at h
    rw [spelled_choice, h.1]
  · rename_i h
    rw [spelled_sequence]
    cases isChoice with
    | false => rfl
    | true =>
      -- Without alternatives nothing stands between the parentheses, whatever the separator is.
      obtain rfl : rules = [] := by simpa using h
      rfl

/-- Suffixes around a rule and suffixes behind them all stand behind the rule. -/
lemma spelled_wrap (rule : Rule ν α) (more : List Suffix) : ∀ ss : List Suffix,
    spelled nameOf (rule.wrap ss) more = spelled nameOf rule (ss ++ more) := by
  intro ss
  induction ss generalizing rule with
  | nil => rfl
  | cons s ss ih =>
    rw [wrap, List.foldl_cons, ← wrap, ih]
    cases s with
    | bounds least most => exact spelled_repetition nameOf rule least most _
    | optional => exact spelled_optional nameOf rule _

mutual

/-- A rule with suffixes and its standard form have the same characters.

**Proof sketch.** Induction on the rule. A suffix moves inwards past a prefix, and their characters
stand on the two sides of the rule. -/
lemma spelled_standardWith : ∀ (rule : Rule ν α) (ss : List Suffix),
    spelled nameOf (rule.standardWith ss) [] = spelled nameOf rule ss
  | .repetition rule least most, ss => by
    rw [standardWith, spelled_standardWith rule, spelled_repetition]
  | .optional rule, ss => by
    rw [standardWith, spelled_standardWith rule, spelled_optional]
  | .lookahead negative rule, ss => by
    rw [standardWith, spelled_lookahead, spelled_standardWith rule, spelled_lookahead]
  | .capture name rule, ss => by
    rw [standardWith, spelled_capture, spelled_standardWith rule, spelled_capture]
  | .bind name rule, ss => by
    rw [standardWith, spelled_bind, spelled_standardWith rule, spelled_bind]
  | .sequence rules, ss => by
    rw [standardWith, spelled_wrap, List.append_nil, spelled_row, spelledRow,
      spelled_standardParts rules, spelled_sequence, spelledRow]
  | .choice rules, ss => by
    rw [standardWith, spelled_wrap, List.append_nil, spelled_row, spelledRow,
      spelled_standardParts rules, spelled_choice, spelledRow]
  | .literal _, ss | .charSet _, ss | .any, ss | .lineStart, ss | .build _ _, ss | .backref _, ss
  | .named _, ss => by
    rw [standardWith, spelled_wrap, List.append_nil] <;> exact nofun

/-- The standard forms of parts are spelled as the parts are. -/
lemma spelled_standardParts : ∀ rules : List (Rule ν α),
    (standardWith.standardParts rules).map (spelled nameOf · []) = rules.map (spelled nameOf · [])
  | [] => rfl
  | rule :: rules => by
    rw [standardWith.standardParts, List.map_cons, List.map_cons, spelled_standardWith rule,
      spelled_standardParts rules]

end

/-- With suffixes around it, no rule needs parentheses. -/
lemma isCompound_wrap (rule : Rule ν α) (ss : List Suffix) :
    (rule.wrap ss).isCompound = (ss.isEmpty && rule.isCompound) := by
  induction ss generalizing rule with
  | nil => rfl
  | cons s ss ih =>
    rw [wrap, List.foldl_cons, ← wrap, ih]
    cases s <;> exact Bool.and_false _

/-- A row needs parentheses. -/
lemma isCompound_row (isChoice : Bool) (rules : List (Rule ν α)) :
    (row isChoice rules).isCompound = true := by
  rw [row]
  split <;> rfl

/-- A standard form needs parentheses just if the rule does, and never with suffixes behind it. -/
lemma isCompound_standardWith : ∀ (rule : Rule ν α) (ss : List Suffix),
    (rule.standardWith ss).isCompound = (ss.isEmpty && rule.isCompound)
  | .repetition rule least most, ss => by
    rw [standardWith, isCompound_standardWith rule]
    exact (Bool.and_false _).symm
  | .optional rule, ss => by
    rw [standardWith, isCompound_standardWith rule]
    exact (Bool.and_false _).symm
  | .lookahead _ _, ss | .capture _ _, ss | .bind _ _, ss => by
    rw [standardWith]
    exact (Bool.and_false _).symm
  | .sequence _, ss | .choice _, ss => by
    rw [standardWith, isCompound_wrap, isCompound_row]
    rfl
  | .literal _, ss | .charSet _, ss | .any, ss | .lineStart, ss | .build _ _, ss | .backref _, ss
  | .named _, ss => by
    rw [standardWith, isCompound_wrap] <;> exact nofun

/-- The notation inside another rule shows the notation itself. -/
lemma render_eq_of_spelled {a b : Rule ν α} (hcompound : a.isCompound = b.isCompound)
    (h : spelled nameOf a [] = spelled nameOf b []) : a.render nameOf = b.render nameOf := by
  simp only [spelled, suffixChars, List.flatMap_nil, List.append_nil, hcompound, parenthesise] at h
  split at h <;> exact String.toList_inj.1 (by simpa using h)

/-- A rule and its standard form have the same notation. -/
theorem render_standard (rule : Rule ν α) : rule.standard.render nameOf = rule.render nameOf :=
  render_eq_of_spelled nameOf (isCompound_standardWith rule [])
    (spelled_standardWith nameOf rule [])

end Spelling

/-! ## Composed rules -/

/-- The characters that are signs of the notation, and those that stand around texts. -/
def signs : List Char :=
  [' ', '/', '(', ')', '!', '&', ':', '=', '*', '+', '?', '\x7b', '\x27', '\x22']

/-- A name, as of a variable: it is not empty and has no signs in it. -/
structure IsName (name : String) : Prop where
  ne_nil : name.toList ≠ []
  not_mem_signs : ∀ c ∈ name.toList, c ∉ signs

/-- Whether a text is a name can be told from its characters. -/
lemma IsName.of_all {name : String} (hne : name.toList.isEmpty = false)
    (h : (name.toList.all fun c => !signs.contains c) = true) : IsName name where
  ne_nil := List.isEmpty_eq_false_iff.1 hne
  not_mem_signs c hc := by simpa using List.all_eq_true.1 h c hc

/-- The rules that are put together from texts and from named rules of the given kind. -/
inductive Composed (nameOf : ν → String) (known : ν → Prop) : Rule ν α → Prop
  | literal (s : String) : Composed nameOf known (.literal s)
  | named {x : ν} (h : known x) (hname : IsName (nameOf x)) : Composed nameOf known (.named x)
  | seq {rules : List (Rule ν α)} (h : ∀ rule ∈ rules, Composed nameOf known rule) :
      Composed nameOf known (seq rules)
  | alt {rules : List (Rule ν α)} (h : ∀ rule ∈ rules, Composed nameOf known rule) :
      Composed nameOf known (alt rules)
  | opt {rules : List (Rule ν α)} (h : ∀ rule ∈ rules, Composed nameOf known rule) :
      Composed nameOf known (opt rules)
  | repetition {rule : Rule ν α} (least : Int) (most : Option Int)
      (h : Composed nameOf known rule) :
      Composed nameOf known (.repetition rule least most)
  | oneOrMore {rules : List (Rule ν α)} (h : ∀ rule ∈ rules, Composed nameOf known rule) :
      Composed nameOf known (oneOrMore rules)
  | zeroOrMore {rules : List (Rule ν α)} (h : ∀ rule ∈ rules, Composed nameOf known rule) :
      Composed nameOf known (zeroOrMore rules)
  | present {rules : List (Rule ν α)} (h : ∀ rule ∈ rules, Composed nameOf known rule) :
      Composed nameOf known (present rules)
  | absent {rules : List (Rule ν α)} (h : ∀ rule ∈ rules, Composed nameOf known rule) :
      Composed nameOf known (absent rules)
  | captured {name : String} (hname : IsName name) {rules : List (Rule ν α)}
      (h : ∀ rule ∈ rules, Composed nameOf known rule) : Composed nameOf known (captured name rules)
  | bound {name : String} (hname : IsName name) {rules : List (Rule ν α)}
      (h : ∀ rule ∈ rules, Composed nameOf known rule) : Composed nameOf known (bound name rules)

/-- The forms of composed rules: no sequence or choice has just one part. -/
inductive Regular (nameOf : ν → String) (known : ν → Prop) : Rule ν α → Prop
  | literal (s : String) : Regular nameOf known (.literal s)
  | named {x : ν} (h : known x) (hname : IsName (nameOf x)) : Regular nameOf known (.named x)
  | sequence {rules : List (Rule ν α)} (hlength : rules.length ≠ 1)
      (h : ∀ rule ∈ rules, Regular nameOf known rule) : Regular nameOf known (.sequence rules)
  | choice {rules : List (Rule ν α)} (hlength : rules.length ≠ 1)
      (h : ∀ rule ∈ rules, Regular nameOf known rule) : Regular nameOf known (.choice rules)
  | repetition {rule : Rule ν α} (least : Int) (most : Option Int) (h : Regular nameOf known rule) :
      Regular nameOf known (.repetition rule least most)
  | optional {rule : Rule ν α} (h : Regular nameOf known rule) :
      Regular nameOf known (.optional rule)
  | lookahead (negative : Bool) {rule : Rule ν α} (h : Regular nameOf known rule) :
      Regular nameOf known (.lookahead negative rule)
  | capture {name : String} (hname : IsName name) {rule : Rule ν α}
      (h : Regular nameOf known rule) :
      Regular nameOf known (.capture name rule)
  | bind {name : String} (hname : IsName name) {rule : Rule ν α} (h : Regular nameOf known rule) :
      Regular nameOf known (.bind name rule)

section Composing

variable {nameOf : ν → String} {known : ν → Prop}

/-- A rule that is composed makes a row of one that is. -/
lemma Composed.singleton {rule : Rule ν α} (h : Composed nameOf known rule) :
    ∀ part ∈ [rule], Composed nameOf known part := fun _ hpart => List.mem_singleton.1 hpart ▸ h

/-- The parts of regular rules in a sequence are regular. -/
lemma Regular.of_mem_sequents {rule part : Rule ν α} (h : Regular nameOf known rule)
    (hpart : part ∈ rule.sequents) : Regular nameOf known part := by
  cases h with
  | sequence _ h => exact h part hpart
  | literal | named | choice | repetition | optional | lookahead | capture | bind =>
    rw [List.mem_singleton.1 hpart]
    constructor <;> assumption

/-- The alternatives of regular rules in a choice are regular. -/
lemma Regular.of_mem_alternatives {rule part : Rule ν α} (h : Regular nameOf known rule)
    (hpart : part ∈ rule.alternatives) : Regular nameOf known part := by
  cases h with
  | choice _ h => exact h part hpart
  | literal | named | sequence | repetition | optional | lookahead | capture | bind =>
    rw [List.mem_singleton.1 hpart]
    constructor <;> assumption

/-- A sequence that is composed of regular rules is regular: a single part stands for itself. -/
lemma Regular.seq {rules : List (Rule ν α)} (h : ∀ rule ∈ rules, Regular nameOf known rule) :
    Regular nameOf known (seq rules) := by
  have hparts : ∀ part ∈ rules.flatMap sequents, Regular nameOf known part := by
    intro part hpart
    obtain ⟨rule, hrule, hpart⟩ := List.mem_flatMap.1 hpart
    exact (h rule hrule).of_mem_sequents hpart
  rw [Rule.seq]
  split
  · rename_i rule heq
    exact hparts rule (by rw [heq]; exact List.mem_singleton_self rule)
  · rename_i hne
    exact .sequence (fun hlength => (List.length_eq_one_iff.1 hlength).elim hne) hparts

/-- A choice that is composed of regular rules is regular: a single alternative stands for itself.
-/
lemma Regular.alt {rules : List (Rule ν α)} (h : ∀ rule ∈ rules, Regular nameOf known rule) :
    Regular nameOf known (alt rules) := by
  have hparts : ∀ part ∈ rules.flatMap alternatives, Regular nameOf known part := by
    intro part hpart
    obtain ⟨rule, hrule, hpart⟩ := List.mem_flatMap.1 hpart
    exact (h rule hrule).of_mem_alternatives hpart
  rw [Rule.alt]
  split
  · rename_i rule heq
    exact hparts rule (by rw [heq]; exact List.mem_singleton_self rule)
  · rename_i hne
    exact .choice (fun hlength => (List.length_eq_one_iff.1 hlength).elim hne) hparts

/-- Composed rules are regular, as the functions that compose them leave no rows of one part. -/
theorem Composed.regular {rule : Rule ν α} (h : Composed nameOf known rule) :
    Regular nameOf known rule := by
  induction h with
  | literal s => exact .literal s
  | named h hname => exact .named h hname
  | seq _ ih => exact .seq ih
  | alt _ ih => exact .alt ih
  | opt _ ih => exact .optional (.seq ih)
  | repetition least most _ ih => exact .repetition least most ih
  | oneOrMore _ ih => exact .repetition 1 none (.seq ih)
  | zeroOrMore _ ih => exact .repetition 0 none (.seq ih)
  | present _ ih => exact .lookahead false (.seq ih)
  | absent _ ih => exact .lookahead true (.seq ih)
  | captured hname _ ih => exact .capture hname (.seq ih)
  | bound hname _ ih => exact .bind hname (.seq ih)

end Composing

end Packrat.Rule
