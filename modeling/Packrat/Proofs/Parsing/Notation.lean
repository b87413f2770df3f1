import Packrat.Program.Source
import Packrat.Proofs.Parsing.Reach
import Packrat.Proofs.Parsing.Reporting
import Packrat.Proofs.Rule.Reading
set_option autoImplicit false
set_option relaxedAutoImplicit false

/-!
# What a notation says about a rule

A notation shows the standard form of a rule, and nothing else about it. The rule ends where its
standard form does if no lookahead has a suffix around it and no choice is without alternatives. Of
two rules with the same notation that are clear in this way, each ends where the other one does. Of
others that is not so: an optional lookahead has the notation of the lookahead of an option.

## Main definitions

* `Packrat.Rule.isClear` — a rule that ends where its standard form does.

## Main results

* `Packrat.Rule.reach_standard` — clear rules end where their standard forms do.
* `Packrat.Grammar.notation_unambiguous` — what rules with the same notation have in common.
-/

namespace Packrat

variable {ν α : Type}

namespace Rule

/-! ## Clear rules -/

/-- Whether no lookahead has a suffix around it and no choice is without alternatives, in a rule
that may have a suffix around it itself. -/
def isClearIn : Rule ν α → Bool → Bool
  | .repetition rule _ _, _ | .optional rule, _ => isClearIn rule true
  | .lookahead _ rule, suffixed => !suffixed && isClearIn rule false
  | .capture _ rule, suffixed | .bind _ rule, suffixed => isClearIn rule suffixed
  | .sequence rules, _ => partsClear rules
  | .choice rules, _ => !rules.isEmpty && partsClear rules
  | _, _ => true
where
  /-- Whether the parts of a sequence or choice are clear. -/
  partsClear : List (Rule ν α) → Bool
    | [] => true
    | rule :: rules => isClearIn rule false && partsClear rules

/-- Whether no lookahead has a suffix around it and no choice is without alternatives. -/
def isClear (rule : Rule ν α) : Bool := rule.isClearIn false

section

variable {text : Text} {env : ν → Nat → Option Nat} {rule other : Rule ν α}

/-- With the same suffixes, rules that end at the same places still do so. -/
lemma reach_wrap (h : rule.reach text env = other.reach text env) (ss : List Suffix) :
    (rule.wrap ss).reach text env = (other.wrap ss).reach text env := by
  induction ss generalizing rule other with
  | nil => exact h
  | cons s ss ih =>
    refine ih ?_
    funext position
    cases s <;> simp only [Suffix.around, reach, h]

mutual

variable (text env)

/-- Clear rules end where their standard forms do, with suffixes and without.

**Proof sketch.** Induction on the rule. Captures and bindings do not change where a rule ends, so a
suffix may stand inside them just as well. -/
lemma reach_standardWith :
    ∀ (rule : Rule ν α) (ss : List Suffix), rule.isClearIn (!ss.isEmpty) = true →
    (rule.standardWith ss).reach text env = (rule.wrap ss).reach text env
  | .repetition rule least most, ss, h => reach_standardWith rule (.bounds least most :: ss) h
  | .optional rule, ss, h => reach_standardWith rule (.optional :: ss) h
  | .lookahead negative rule, ss, h => by
    rw [isClearIn, Bool.and_eq_true, Bool.not_not, List.isEmpty_iff] at h
    obtain ⟨rfl, hrule⟩ := h
    funext position
    have hinner := reach_standardWith rule [] hrule
    rw [standardWith, reach, hinner]
    rfl
  | .capture name rule, ss, h => by
    have hinner : rule.reach text env = (capture name rule).reach text env := rfl
    rw [standardWith, ← reach_wrap hinner, ← reach_standardWith rule ss h]
    rfl
  | .bind name rule, ss, h => by
    have hinner : rule.reach text env = (bind name rule).reach text env := rfl
    rw [standardWith, ← reach_wrap hinner, ← reach_standardWith rule ss h]
    rfl
  | .sequence rules, ss, h => by
    refine reach_wrap ?_ ss
    funext position
    exact congrFun (reachParts_standard rules h) position
  | .choice rules, ss, h => by
    rw [isClearIn, Bool.and_eq_true] at h
    have hrow : row true (standardWith.standardParts rules) =
        .choice (standardWith.standardParts rules) := by
      rw [row, standardParts_eq, List.isEmpty_map, Bool.true_and, if_pos h.1]
    refine reach_wrap ?_ ss
    rw [hrow]
    funext position
    exact congrFun (reachChoice_standard rules h.2) position
  | .literal _, _, _ | .charSet _, _, _ | .any, _, _ | .lineStart, _, _ | .build _ _, _, _
  | .backref _, _, _
  | .named _, _, _ => rfl

/-- In their standard form, clear parts end where they ended before, one behind the other. -/
lemma reachParts_standard : ∀ rules : List (Rule ν α), isClearIn.partsClear rules = true →
    reach.reachParts text env (standardWith.standardParts rules) = reach.reachParts text env rules
  | [], _ => rfl
  | rule :: rules, h => by
    rw [isClearIn.partsClear, Bool.and_eq_true] at h
    funext position
    rw [standardWith.standardParts, reach.reachParts, reach.reachParts,
      reach_standardWith rule [] h.1, reachParts_standard rules h.2]
    rfl

/-- In their standard form, clear alternatives end where they ended before. -/
lemma reachChoice_standard : ∀ rules : List (Rule ν α), isClearIn.partsClear rules = true →
    reach.reachChoice text env (standardWith.standardParts rules) = reach.reachChoice text env rules
  | [], _ => rfl
  | rule :: rules, h => by
    rw [isClearIn.partsClear, Bool.and_eq_true] at h
    funext position
    rw [standardWith.standardParts, reach.reachChoice, reach.reachChoice,
      reach_standardWith rule [] h.1, reachChoice_standard rules h.2]
    rfl

end

/-- A clear rule ends where its standard form does. -/
theorem reach_standard (h : rule.isClear = true) :
    rule.standard.reach text env = rule.reach text env :=
  reach_standardWith text env rule [] h

end

/-! ## Composed rules -/

section

variable {nameOf : ν → String} {known : ν → Prop} {rule : Rule ν α}

/-- Parts that refer to nothing refer to nothing together. -/
lemma partsRefer_eq_nil : ∀ {rules : List (Rule ν α)}, (∀ rule ∈ rules, rule.refers = []) →
    refers.partsRefer rules = []
  | [], _ => rfl
  | rule :: rules, h => by
    rw [refers.partsRefer, h rule List.mem_cons_self,
      partsRefer_eq_nil fun part hpart => h part (List.mem_cons_of_mem _ hpart)]
    rfl

/-- Regular rules refer to no bindings. -/
lemma Regular.refers_eq_nil (h : Regular nameOf known rule) : rule.refers = [] := by
  induction h with
  | literal | named => rfl
  | sequence _ _ ih => exact partsRefer_eq_nil ih
  | choice _ _ ih => exact partsRefer_eq_nil ih
  | repetition _ _ _ ih => exact ih
  | optional _ ih => exact ih
  | lookahead _ _ ih => exact ih
  | capture _ _ ih => exact ih
  | bind _ _ ih => exact ih

end

end Rule

variable [DecidableEq ν]

/-- Outcomes that end at the same given place end alike, if the parse does not stop. -/
lemma Outcome.Reaches.stop?_eq {outcome : Outcome α (Match α)} {reached : Option Nat}
    (h : outcome.Reaches (·.stop) reached) (hends : ∀ cause, outcome ≠ .stopped cause) :
    outcome.stop? = reached := by
  cases h with
  | matched => rfl
  | unmatched => rfl
  | stopped cause => exact absurd rfl (hends cause)

namespace Grammar

variable {g : Grammar ν α} {known : ν → Prop} {a b : Rule ν α}

/-- Rules that are composed of texts and named rules, these with different names, have the same
notation just if they have the same standard form; and the notation is that of the standard form. If
they are clear and have the same notation, then they match at the same positions of every text and
end at the same places, unless a parse stops.

**Proof sketch.** There is only one way to read the notation. Clear rules end where their standard
forms do, and all that applications with an outcome do is to end there, too. -/
theorem notation_unambiguous
    (hnames : ∀ x y, known x → known y → (g.define x).name = (g.define y).name → x = y)
    (ha : a.Composed (fun x => (g.define x).name) known)
    (hb : b.Composed (fun x => (g.define x).name) known) :
    (g.render a = g.render b ↔ a.standard = b.standard) ∧
    g.render a.standard = g.render a ∧
    (g.render a = g.render b → a.isClear = true → b.isClear = true →
      ∀ (text : Text) (position limit limit' : Nat) (scope scope' : Scope) (run run' : Run ν α),
        run.Sound g text → run'.Sound g text →
        (∀ cause, (g.apply text limit a position scope run).1 ≠ .stopped cause) →
        (∀ cause, (g.apply text limit' b position scope' run').1 ≠ .stopped cause) →
        (g.apply text limit a position scope run).1.stop? =
          (g.apply text limit' b position scope' run').1.stop?) := by
  have hiff : g.render a = g.render b ↔ a.standard = b.standard :=
    Rule.render_eq_iff hnames ha.regular hb.regular
  refine ⟨hiff, Rule.render_standard _ a, ?_⟩
  intro hsame hclear hclear' text position limit limit' scope scope' run run' hrun hrun'
    hends hends'
  obtain ⟨env, henv⟩ := g.exists_locates text
  have hreaches := reaches_apply henv ha.regular.refers_eq_nil limit position scope hrun
  have hreaches' := reaches_apply henv hb.regular.refers_eq_nil limit' position scope' hrun'
  calc (g.apply text limit a position scope run).1.stop?
      = a.reach text env position := hreaches.stop?_eq hends
    _ = a.standard.reach text env position := congrFun (Rule.reach_standard hclear).symm position
    _ = b.standard.reach text env position := by rw [hiff.1 hsame]
    _ = b.reach text env position := congrFun (Rule.reach_standard hclear') position
    _ = (g.apply text limit' b position scope' run').1.stop? := (hreaches'.stop?_eq hends').symm

end Grammar

namespace Program

/-- Phrases of the same name are the same. -/
lemma Phrase.name_injective {x y : Phrase} (h : x.name = y.name) : x = y :=
  Option.some.inj ((ofName?_name x).symm.trans ((congrArg ofName? h).trans (ofName?_name y)))

/-- An option with a name for the number in it. -/
def optionOfField : Pattern := .opt [.captured "n" [.named .digits]]

/-- A name for an option with a number in it. -/
def fieldOfOption : Pattern := .captured "n" [.opt [.named .digits]]

/-- Both are shown as a name for an option, and end behind the number. -/
theorem notation_unambiguous_field :
    (∀ x y : Phrase, True → True → (grammar.define x).name = (grammar.define y).name → x = y) ∧
      optionOfField.Composed (fun x => (grammar.define x).name) (fun _ => True) ∧
      fieldOfOption.Composed (fun x => (grammar.define x).name) (fun _ => True) ∧
      grammar.render optionOfField = "n:digits?" ∧ grammar.render fieldOfOption = "n:digits?" ∧
      optionOfField.standard = fieldOfOption.standard ∧
      (grammar.apply (.ofString "12") 30 optionOfField 0 [] (.fresh true false)).1.stop? = some 2 ∧
      (grammar.apply (.ofString "12") 40 fieldOfOption 0 [] (.fresh false true)).1.stop? =
      some 2 := by
  have hnames : ∀ x y : Phrase, True → True →
      (grammar.define x).name = (grammar.define y).name → x = y :=
    fun _ _ _ _ h => Phrase.name_injective h
  have hdigits : Rule.Composed (fun x => (grammar.define x).name) (fun _ => True)
      (.named .digits : Pattern) := .named trivial (.of_all rfl rfl)
  have hn : Rule.IsName "n" := .of_all rfl rfl
  have ha : optionOfField.Composed (fun x => (grammar.define x).name) (fun _ => True) :=
    .opt (Rule.Composed.captured hn hdigits.singleton).singleton
  have hb : fieldOfOption.Composed (fun x => (grammar.define x).name) (fun _ => True) :=
    .captured hn (Rule.Composed.opt hdigits.singleton).singleton
  have hmatched :
      (grammar.apply (.ofString "12") 30 optionOfField 0 [] (.fresh true false)).1.stop? = some 2 :=
    rfl
  obtain ⟨hiff, -, hstops⟩ := Grammar.notation_unambiguous hnames ha hb
  refine ⟨hnames, ha, hb, rfl, rfl, hiff.1 rfl, hmatched, ?_⟩
  rw [← hstops rfl rfl rfl (.ofString "12") 0 30 40 [] [] (.fresh true false) (.fresh false true)
    (Run.sound_fresh true false) (Run.sound_fresh false true) (fun cause h => ?_)
    (fun cause h => ?_)]
  · exact hmatched
  · cases h
  · cases h

/-- Nothing, where there is no optional letter: that is nowhere. -/
def absenceOfOption : Pattern := .absent [.opt [.literal "a"]]

/-- An option with nothing in it, where there is no letter. -/
def optionOfAbsence : Pattern := .opt [.absent [.literal "a"]]

/-- The absence of an option never matches, and the option of an absence always does, but they have
the same notation. -/
theorem notation_of_absence :
    absenceOfOption.Composed (fun x => (grammar.define x).name) (fun _ => True) ∧
      optionOfAbsence.Composed (fun x => (grammar.define x).name) (fun _ => True) ∧
      grammar.render absenceOfOption = "!'a'?" ∧ grammar.render optionOfAbsence = "!'a'?" ∧
      (grammar.apply (.ofString "") 5 absenceOfOption 0 [] (.fresh true false)).1 = .unmatched ∧
      (grammar.apply (.ofString "") 5 optionOfAbsence 0 [] (.fresh true false)).1 =
        .matched ⟨⟨0, none⟩, []⟩ := by
  have hletter :
      Rule.Composed (fun x => (grammar.define x).name) (fun _ => True) (.literal "a" : Pattern) :=
    .literal "a"
  exact ⟨.absent (Rule.Composed.opt hletter.singleton).singleton,
    .opt (Rule.Composed.absent hletter.singleton).singleton, rfl, rfl, rfl, rfl⟩

end Program

end Packrat
