import Packrat.Program.Source
import Packrat.Proofs.Matching.Remembered
set_option autoImplicit false
set_option relaxedAutoImplicit false

/-!
# Parsing with and without remembered results

Whether results are remembered changes nothing about a parse, except that it may do with a smaller
limit: a value, a flaw of the grammar and a report of failure are the same in all their parts.

What a rule means is therefore a matter of the text alone. A rule *yields* an outcome if it has that
outcome without remembered results and under some limit; every parse that does not exceed its limit,
with whatever settings, is decided by what its start rule yields.

## Main definitions

* `Packrat.TooDeep` — a parse that reports that rules are nested too deep.
* `Packrat.Grammar.Yields` — what a rule means at a position of a text.

## Main results

* `Packrat.Grammar.parse_memoize` — parsing with and without remembered results agree.
* `Packrat.Grammar.parse_eq_ok_iff` — when a parse gives a value.
-/

namespace Packrat

variable {ν α : Type} [DecidableEq ν]

/-- The parse reports that rules are nested too deep. -/
def TooDeep (parsed : Except (ParseError α) (Value α)) : Prop :=
  ∃ failure, parsed = .error (.failure failure) ∧ failure.reason = .tooDeep

/-- A parse that gives a value does not report that rules are nested too deep. -/
lemma not_tooDeep_of_isOk {parsed : Except (ParseError α) (Value α)} (h : parsed.isOk) :
    ¬ TooDeep parsed := by
  rintro ⟨failure, rfl, -⟩
  cases h

/-- A text that is parsed does not exceed the limit. -/
lemma not_tooDeep_of_ok {parsed : Except (ParseError α) (Value α)} {value : Value α}
    (h : parsed = .ok value) : ¬ TooDeep parsed :=
  not_tooDeep_of_isOk (h ▸ rfl)

/-- What an answer means for the text depends on its outcome and the furthest failure alone. -/
lemma conclude_congr (text : Text) {a b : Answer ν α (Match α)} (ho : a.1 = b.1)
    (hf : a.2.frontier = b.2.frontier) : a.conclude text = b.conclude text := by
  obtain ⟨outcome, run⟩ := a
  obtain ⟨other, run'⟩ := b
  obtain rfl : outcome = other := ho
  simp only at hf
  cases outcome with
  | matched result => simp [Answer.conclude, Run.failure, Run.lastFrontier, hf]
  | unmatched => simp [Answer.conclude, Run.failure, Run.lastFrontier, hf]
  | stopped cause => cases cause <;> simp [Answer.conclude, Run.tooDeep, hf]

/-- A parse reports that rules are nested too deep just if its answer says so. -/
lemma tooDeep_conclude_iff (text : Text) (a : Answer ν α (Match α)) :
    TooDeep (a.conclude text) ↔ a.1 = .stopped .tooDeep := by
  obtain ⟨outcome, run⟩ := a
  constructor
  · rintro ⟨failure, h, hr⟩
    cases outcome with
    | matched result =>
      simp only [Answer.conclude] at h
      split at h
      · cases h
      · cases h; cases hr
    | unmatched => cases h; cases hr
    | stopped cause =>
      cases cause with
      | tooDeep => rfl
      | flaw flaw => cases h
  · rintro h
    simp only at h
    subst h
    exact ⟨_, rfl, rfl⟩

/-- A parse that comes upon a flaw of the grammar ends with it. -/
lemma outcome_of_flaw {text : Text} {a : Answer ν α (Match α)} {flaw : Flaw α}
    (h : a.conclude text = .error (.flaw flaw)) : a.1 = .stopped (.flaw flaw) := by
  obtain ⟨outcome, run⟩ := a
  cases outcome with
  | matched result =>
    simp only [Answer.conclude] at h
    split at h <;> cases h
  | unmatched => cases h
  | stopped cause =>
    cases cause with
    | tooDeep => cases h
    | flaw other =>
      cases h
      rfl

namespace Grammar

variable (g : Grammar ν α)

/-- What a rule means at a position of a text: its outcome without remembered results, under any
limit that is large enough. -/
def Yields (text : Text) (rule : Rule ν α) (position : Nat) (scope : Scope)
    (outcome : Outcome α (Match α)) : Prop :=
  outcome ≠ .stopped .tooDeep ∧
    ∃ limit reports, Action.Answers (g.apply text limit rule position scope) outcome reports

variable {g} {text : Text} {rule : Rule ν α} {position : Nat} {scope : Scope}

/-- A rule yields one outcome only. -/
theorem Yields.unique {outcome other : Outcome α (Match α)}
    (h : g.Yields text rule position scope outcome) (h' : g.Yields text rule position scope other) :
    outcome = other := by
  obtain ⟨hne, low, reports, ha⟩ := h
  obtain ⟨hne', high, more, ha'⟩ := h'
  exact answers_unique (fun limit => g.apply text limit rule position scope)
    (fun _ _ _ hle hlt => g.apply_of_le hle hlt) ha ha' hne hne'

/-- From a sound state, an application that does not run into the limit has the outcome that the
rule yields. -/
theorem yields_apply {limit : Nat} {run : Run ν α} (hs : run.Sound g text)
    (hne : (g.apply text limit rule position scope run).1 ≠ .stopped .tooDeep) :
    g.Yields text rule position scope (g.apply text limit rule position scope run).1 := by
  obtain ⟨other, reports, ha, -⟩ :=
    ((lawful_apply limit rule position scope).faithful run hs).answers hne
  exact ⟨hne, other, reports, ha⟩

/-- What a rule yields, and the reports it makes, under two limits that are large enough. -/
lemma noteAll_eq_of_answers {low high : Nat} {outcome : Outcome α (Match α)}
    {reports more : List Report} (hne : outcome ≠ .stopped .tooDeep)
    (h : Action.Answers (g.apply text low rule position scope) outcome reports)
    (h' : Action.Answers (g.apply text high rule position scope) outcome more) :
    ({} : Frontier).noteAll reports = ({} : Frontier).noteAll more := by
  have raise : ∀ {limit reports}, limit ≤ max low high →
      Action.Answers (g.apply text limit rule position scope) outcome reports →
      Action.Answers (g.apply text (max low high) rule position scope) outcome reports :=
    fun hle h => answers_of_le (fun limit => g.apply text limit rule position scope)
      (fun _ _ _ hle hlt => g.apply_of_le hle hlt) hle h hne
  have ha := raise (Nat.le_max_left low high) h
  have ha' := raise (Nat.le_max_right low high) h'
  have hf := (ha (.fresh false false) rfl (Int.le_refl _)).2.1.frontier
  have hf' := (ha' (.fresh false false) rfl (Int.le_refl _)).2.1.frontier
  exact hf.symm.trans hf'

variable (g) in
/-- Parsing with remembered results agrees with parsing without them, whenever the latter does not
exceed the limit: it gives the same value, the same flaw of the grammar, or the same report of
failure, and does not exceed the limit either.

**Proof sketch.** From the fresh state, applying the start rule is faithful, so its outcome is the
one without remembered results, and the same reports are heard on the way. -/
theorem parse_memoize (start : Rule ν α) (text : String) (tracing : Bool) (limit : Nat)
    (h : ¬ TooDeep (g.parse ⟨false, tracing, limit⟩ start text)) :
    g.parse ⟨true, tracing, limit⟩ start text = g.parse ⟨false, tracing, limit⟩ start text ∧
      ¬ TooDeep (g.parse ⟨true, tracing, limit⟩ start text) := by
  have hfresh : (Run.fresh true tracing : Run ν α).Sound g (.ofString text) :=
    Run.sound_fresh true tracing
  have hfaith := (lawful_apply limit start 0 []).faithful _ hfresh
  obtain ⟨outcome, reports, hsteady⟩ := g.steady_apply (.ofString text) limit start 0 []
  obtain ⟨hout, hheard, -⟩ := hsteady (.fresh false tracing) rfl (Int.le_refl _)
  have hplain : outcome ≠ .stopped .tooDeep := by
    rintro rfl
    exact h ((tooDeep_conclude_iff _ _).2 hout)
  have hmemo : (g.apply (.ofString text) limit start 0 [] (.fresh true tracing)).1 ≠
      .stopped .tooDeep := by
    intro htd
    obtain ⟨more, hcut⟩ := hfaith.cut htd
    exact hplain (hout.symm.trans (hcut (.fresh false tracing) rfl (Int.le_refl _)).1)
  obtain ⟨other, more, ha, hh⟩ := hfaith.answers hmemo
  obtain rfl := answers_unique (fun limit => g.apply (.ofString text) limit start 0 [])
    (fun _ _ _ hle hlt => g.apply_of_le hle hlt) hsteady ha hplain hmemo
  have hsame : g.parse ⟨true, tracing, limit⟩ start text =
      g.parse ⟨false, tracing, limit⟩ start text := by
    refine conclude_congr _ hout.symm ?_
    have hnote := noteAll_eq_of_answers hplain hsteady ha
    have hf := hheard.frontier.trans (if_pos rfl)
    have hf' := hh.frontier.trans (if_pos rfl)
    exact hf'.trans (hnote.symm.trans hf.symm)
  exact ⟨hsame, hsame ▸ h⟩

/-- A parse that does not exceed its limit is decided by what its start rule yields. -/
lemma exists_yields {settings : Settings} {start : Rule ν α} {text : String}
    (h : ¬ TooDeep (g.parse settings start text)) :
    ∃ outcome, g.Yields (.ofString text) start 0 [] outcome ∧
      outcome = (g.run settings start (.ofString text)).1 :=
  ⟨_, yields_apply (Run.sound_fresh settings.memoize settings.tracing)
    (mt (tooDeep_conclude_iff _ _).2 h), rfl⟩

/-- A parse that does not exceed its limit gives a value just if its start rule yields a match of
the whole text. The value is what the match produced, or else the text. -/
theorem parse_eq_ok_iff {settings : Settings} {start : Rule ν α} {text : String} {value : Value α}
    (h : ¬ TooDeep (g.parse settings start text)) :
    g.parse settings start text = .ok value ↔
      ∃ m, g.Yields (.ofString text) start 0 [] (.matched m) ∧ m.stop = text.length ∧
        value = m.value.getD (.text text) := by
  obtain ⟨outcome, hy, hout⟩ := exists_yields h
  rw [parse]
  rcases hrun : g.run settings start (.ofString text) with ⟨_, run⟩
  obtain rfl : outcome = _ := hout.trans (congrArg Prod.fst hrun)
  constructor
  · intro hok
    cases outcome with
    | matched m =>
      simp only [Answer.conclude] at hok
      split at hok
      · rename_i hstop
        rw [Text.size_ofString] at hstop
        rw [Text.toString_ofString] at hok
        exact ⟨m, hy, hstop, (Except.ok.inj hok).symm⟩
      · cases hok
    | unmatched => cases hok
    | stopped cause => cases cause <;> cases hok
  · rintro ⟨m, hm, hstop, rfl⟩
    obtain rfl : outcome = .matched m := hy.unique hm
    simp [Answer.conclude, hstop, Text.toString_ofString]

end Grammar

namespace Program

/-- A list of a pair is read twice at its first element, the second time out of the memo. -/
theorem parse_memoize_list :
    ¬ TooDeep (grammar.parse ⟨false, false, 1000⟩ (.named .program) "[:a, 1..2]") ∧
      grammar.parse ⟨true, false, 1000⟩ (.named .program) "[:a, 1..2]" =
        grammar.parse ⟨false, false, 1000⟩ (.named .program) "[:a, 1..2]" := by
  have h : ¬ TooDeep (grammar.parse ⟨false, false, 1000⟩ (.named .program) "[:a, 1..2]") :=
    not_tooDeep_of_isOk (by decide +kernel)
  exact ⟨h, (grammar.parse_memoize (.named .program) "[:a, 1..2]" false 1000 h).1⟩

end Program

end Packrat
