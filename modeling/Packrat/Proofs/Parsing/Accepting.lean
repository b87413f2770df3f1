import Packrat.Proofs.Matching.Nesting
import Packrat.Proofs.Matching.Solution
import Packrat.Proofs.Parsing.Memoization
set_option autoImplicit false
set_option relaxedAutoImplicit false

/-!
# Parsing by a solution

A solution of the definitions of a grammar decides every parse that does not exceed its limit: the
text is accepted just if the start rule takes all of it.

## Main results

* `Packrat.Grammar.Solves.parse_failure_or_ok` — a parse by a solution comes upon no flaw of the
  grammar.
* `Packrat.Grammar.Solves.parse_eq_ok_iff` — when a parse gives a value, by a solution.
* `Packrat.Grammar.not_tooDeep_of_fits` — a parse whose start rule fits the limit does not exceed
  it.
-/

namespace Packrat

namespace Grammar

variable {ν α : Type} [DecidableEq ν] {g : Grammar ν α} {t : Text}
  {env : ν → List Char → Option (Piece α)}

/-- What a rule yields, by a solution. -/
lemma Solves.yields (hs : g.Solves t env) {rule : Rule ν α} {cs : List Char}
    (hcs : cs <:+ t.chars.toList) {scope : Scope} {outcome : Outcome α (Match α)}
    (h : g.Yields t rule (t.place cs) scope outcome) :
    outcome = (rule.take g t.lineStartsAt env scope cs).map t.matchOf := by
  obtain ⟨hne, limit, reports, ha⟩ := h
  have hout := (ha (.fresh false false) rfl (Int.le_refl _)).1
  obtain ⟨ho, -⟩ := obeys_apply hs limit rule scope cs hcs (.fresh false false) rfl
  rw [hout] at ho
  exact ho.resolve_left hne

/-- The whole text is ahead at its beginning. -/
lemma place_ofString (text : String) : (Text.ofString text).place text.toList = 0 := by
  simp [Text.place, Text.size, Text.ofString]

/-- What a start rule yields, by a solution. -/
lemma Solves.yields_start {x : ν} {text : String} (hs : g.Solves (.ofString text) env)
    {outcome : Outcome α (Match α)} (h : g.Yields (.ofString text) (.named x) 0 [] outcome) :
    outcome = ((Rule.named x).take g (Text.ofString text).lineStartsAt env [] text.toList).map
      (Text.ofString text).matchOf := by
  rw [← place_ofString text] at h
  exact hs.yields (by simp [Text.ofString]) h

/-- A parse that does not exceed its limit gives a value just if its start rule takes the whole
text. The value is what the rule produces, or else the text. -/
theorem Solves.parse_eq_ok_iff {settings : Settings} {x : ν} {text : String} {value : Value α}
    (hs : g.Solves (.ofString text) env) (h : ¬ TooDeep (g.parse settings (.named x) text)) :
    g.parse settings (.named x) text = .ok value ↔
      ∃ produced, env x text.toList = some ⟨produced, []⟩ ∧
        value = produced.getD (.text text) := by
  have hstop : ∀ {rest : List Char}, rest <:+ text.toList →
      ((Text.ofString text).place rest = text.length ↔ rest = []) := by
    intro rest hrest
    have hlen := hrest.length_le
    rw [String.length_toList] at hlen
    rw [Text.place, Text.size_ofString, ← List.length_eq_zero_iff]
    omega
  rw [Grammar.parse_eq_ok_iff h]
  constructor
  · rintro ⟨m, hm, hend, rfl⟩
    have hout := hs.yields_start hm
    rw [Rule.take] at hout
    cases henv : env x text.toList with
    | none =>
      rw [henv] at hout
      cases hout
    | some piece =>
      rw [henv] at hout
      obtain rfl := Outcome.matched.inj hout
      obtain ⟨produced, rest⟩ := piece
      obtain rfl := (hstop (hs.suffix _ _ _ henv)).1 hend
      exact ⟨produced, rfl, rfl⟩
  · rintro ⟨produced, henv, rfl⟩
    obtain ⟨outcome, hy, -⟩ := exists_yields h
    have hout := hs.yields_start hy
    rw [Rule.take, henv] at hout
    exact ⟨_, hout ▸ hy, (hstop (List.nil_suffix)).2 rfl, rfl⟩

/-- A parse by a solution reports a failure, or gives the value that the start rule produces where
it takes the whole text: it comes upon no flaw of the grammar, whatever its limit. -/
theorem Solves.parse_failure_or_ok (settings : Settings) (x : ν) {text : String}
    (hs : g.Solves (.ofString text) env) :
    (∃ failure, g.parse settings (.named x) text = .error (.failure failure)) ∨
      ∃ produced, env x text.toList = some ⟨produced, []⟩ ∧
        g.parse settings (.named x) text = .ok (produced.getD (.text text)) := by
  cases hparse : g.parse settings (.named x) text with
  | ok value =>
    have hdeep : ¬ TooDeep (g.parse settings (.named x) text) :=
      not_tooDeep_of_ok hparse
    obtain ⟨produced, henv, rfl⟩ := (hs.parse_eq_ok_iff hdeep).1 hparse
    exact .inr ⟨produced, henv, rfl⟩
  | error cause =>
    cases cause with
    | failure failure => exact .inl ⟨failure, rfl⟩
    | flaw flaw =>
      have hdeep : ¬ TooDeep (g.parse settings (.named x) text) := by
        rw [hparse]
        rintro ⟨failure, h, -⟩
        cases h
      obtain ⟨outcome, hy, hrun⟩ := exists_yields hdeep
      have hflaw : outcome = .stopped (.flaw flaw) := hrun.trans (outcome_of_flaw hparse)
      have hout := hs.yields_start hy
      rw [hflaw, Rule.take] at hout
      cases henv : env x text.toList <;> rw [henv] at hout <;> cases hout

/-- A parse whose start rule fits the limit does not exceed it. -/
theorem not_tooDeep_of_fits {settings : Settings} {start : Rule ν α} {text : String}
    (h : g.fits settings.limit start = true) : ¬ TooDeep (g.parse settings start text) := by
  rw [parse, tooDeep_conclude_iff]
  exact shallow_apply settings.limit h 0 [] _

end Grammar

end Packrat
