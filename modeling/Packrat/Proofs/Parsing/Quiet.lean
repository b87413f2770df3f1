import Packrat.Program.Grammar
import Packrat.Proofs.Matching.Once
import Packrat.Proofs.Parsing.Memoization
set_option autoImplicit false
set_option relaxedAutoImplicit false

/-!
# Failures that are kept quiet

Rules inside a lookahead, or inside a rule with a name for error messages, fail without a report.
Nothing that is done there moves the furthest failure, however deep inside, and also not through
what is remembered. All the rest is as it would be otherwise.

## Main definitions

* `Packrat.Run.Still` — a state in which failures are kept quiet, with a given furthest failure.

## Main results

* `Packrat.Grammar.still_inside` — the furthest failure stays the same in all that an application
  makes.
* `Packrat.Grammar.quiet_is_silent` — what being quiet changes, and what not.
-/

namespace Packrat

variable {ν α : Type} [DecidableEq ν]

/-- A sound state in which failures are kept quiet, and in which the given failure is the
furthest. -/
structure Run.Still (g : Grammar ν α) (text : Text) (frontier : Frontier) (run : Run ν α) :
    Prop where
  sound : run.Sound g text
  quiet_pos : 0 < run.quiet
  frontier_eq : run.frontier = frontier

namespace Run.Still

variable {g : Grammar ν α} {text : Text} {frontier : Frontier} {run : Run ν α}

/-- Work that is done quietly moves nothing. -/
lemma heard {reports : List Report} {after : Run ν α} (h : run.Still g text frontier)
    (hheard : Run.Heard reports run after) (hsound : after.Sound g text) :
    after.Still g text frontier :=
  ⟨hsound, hheard.quiet ▸ h.quiet_pos,
    by rw [hheard.frontier, if_neg (Int.ne_of_gt h.quiet_pos), h.frontier_eq]⟩

/-- Whatever is applied in a quiet state, its furthest failure is still there. -/
lemma answer (a : Application ν α) (h : a.run.Still g text frontier) :
    (a.answer g text).2.Still g text frontier := by
  have hfaithful := (Grammar.lawful_apply a.limit a.rule a.position a.scope).faithful a.run h.sound
  obtain ⟨reports, hheard⟩ := hfaithful.heard
  exact h.heard hheard hfaithful.sound

/-- More rules that want to be quiet make no difference. -/
lemma inside (h : run.Still g text frontier) {amount : Int} (hamount : 0 ≤ amount) (deeper : Nat) :
    Run.Still g text frontier
      { run with quiet := run.quiet + amount, depth := run.depth + deeper } :=
  ⟨⟨Int.add_nonneg h.sound.quiet_nonneg hamount, h.sound.vouched⟩,
    Int.add_pos_of_pos_of_nonneg h.quiet_pos hamount, h.frontier_eq⟩

/-- An entry of the trace does not disturb the furthest failure. -/
lemma record (h : run.Still g text frontier) (event : Event ν) :
    (run.record event).Still g text frontier :=
  h.heard (.record run event) (h.sound.heard (.record run event) (Grammar.memo_record run event))

end Run.Still

namespace Grammar

variable {g : Grammar ν α} {text : Text} {run : Run ν α}

/-- The furthest failure stays the same in all applications inside one that is made quietly. -/
theorem still_inside {frontier : Frontier} {a inner : Application ν α}
    (h : a.run.Still g text frontier)
    (hinner : g.MakesAll text a inner) : inner.run.Still g text frontier :=
  (@MakesAll.keeps _ _ _ g text (fun _ => True) (Run.Still g text frontier)
    (fun a _ ha => ⟨ha.answer a, fun _ _ => trivial⟩)
    (fun _ _ deeper hamount hrun => hrun.inside hamount deeper)
    (fun _ event hrun => hrun.record event) a inner hinner trivial h).2

/-- A rule inside another one that wants failures kept quiet leaves the furthest failure where it
was. -/
lemma frontier_within (hs : run.Sound g text) {amount : Int} (hamount : 0 < amount)
    (deeper limit : Nat) (rule : Rule ν α) (position : Nat) (scope : Scope) :
    (Action.within amount deeper (g.apply text limit rule position scope) run).2.frontier =
    run.frontier := by
  have hstill : Run.Still g text run.frontier
      { run with quiet := run.quiet + amount, depth := run.depth + deeper } :=
    ⟨⟨Int.add_nonneg hs.quiet_nonneg (Int.le_of_lt hamount), hs.vouched⟩,
      Int.add_pos_of_nonneg_of_pos hs.quiet_nonneg hamount, rfl⟩
  exact (hstill.answer ⟨limit, rule, position, scope, _⟩).frontier_eq

/-- A lookahead leaves the furthest failure where it was. -/
lemma frontier_lookahead (hs : run.Sound g text) (limit : Nat) (negative : Bool) (rule : Rule ν α)
    (position : Nat) (scope : Scope) :
    (g.apply text limit (.lookahead negative rule) position scope run).2.frontier =
    run.frontier := by
  cases limit with
  | zero => rfl
  | succ limit =>
    rw [apply_lookahead_eq]
    exact frontier_within hs (by decide) 0 limit rule position scope

/-- The body of a rule with a name for error messages leaves the furthest failure where it was. -/
lemma frontier_applyBody (hs : run.Sound g text) {x : ν} {description : String}
    (hname : (g.define x).errorName = some description) (limit position : Nat) :
    (g.applyBody (g.apply text limit) x position run).2.frontier = run.frontier := by
  have hhushing : g.hushing x = 1 := by simp [hushing, hname]
  rw [applyBody_eq, hhushing, bodyAction]
  cases (g.define x).body with
  | error mistake => rfl
  | ok body => exact frontier_within hs (by decide) 1 limit body position []

/-- What a rule with a name for error messages reports, if its result is not remembered: that it is
missing, if it does not match, and otherwise nothing. -/
lemma frontier_named (hs : run.Sound g text) {x : ν} {description : String}
    (hname : (g.define x).errorName = some description) {position : Nat}
    (hforgotten : run.remembered? (run.key x position) = none) (limit : Nat) (scope : Scope) :
    ((g.apply text limit (.named x) position scope run).1 = .unmatched →
      (g.apply text limit (.named x) position scope run).2.frontier =
        (run.fail position description).frontier) ∧
    ((g.apply text limit (.named x) position scope run).1 ≠ .unmatched →
      (g.apply text limit (.named x) position scope run).2.frontier = run.frontier) := by
  match limit with
  | 0 | 1 => exact ⟨nofun, fun _ => rfl⟩
  | limit + 2 =>
    rw [apply_named, applyNamed_of_forgotten _ _ _ _ _ hforgotten]
    have hrecord := Run.Heard.record run (.enter run.depth x position)
    have hentered := hs.heard hrecord (memo_record run _)
    have hfrontier := frontier_applyBody hentered hname limit position
    obtain ⟨_, hbody⟩ :=
      ((compositional_lawful.applyBody (lawful_apply limit : g.LawfulAt text limit) g x
        position).faithful _ hentered).heard
    rw [hrecord.frontier, Frontier.noteAll_nil, ite_self] at hfrontier
    generalize g.applyBody (g.apply text limit) x position
      (run.record (.enter run.depth x position)) = answer at hbody hfrontier ⊢
    obtain ⟨outcome, after⟩ := answer
    have hsettled := (g.heard_settleOutcome (run.key x position) outcome after).frontier
    have hquiet : after.quiet = run.quiet := hbody.quiet.trans hrecord.quiet
    have hreports : (g.settleOutcome (run.key x position) outcome after).frontier =
        if run.quiet = 0 then run.frontier.noteAll (g.closingReports x position outcome)
        else run.frontier := by
      rw [hsettled, hquiet, hfrontier]
      rfl
    refine ⟨fun hout => ?_, fun hout => ?_⟩ <;> simp only at hout ⊢ <;> rw [hreports]
    · obtain rfl : outcome = .unmatched := by cases outcome <;> simp [inScope] at hout ⊢
      have hfail := (Run.Heard.fail run position description).frontier
      rw [hfail, closingReports, hname]
      rfl
    · have hnone : g.closingReports x position outcome = [] := by
        cases outcome <;> simp [inScope, closingReports] at hout ⊢
      rw [hnone, Frontier.noteAll_nil, ite_self]

variable (g text) in
/-- What being quiet changes in a run, and what not.

* While failures are kept quiet, no application moves the furthest failure, nor does any inside it.
* Applications have the outcome that they have when nothing is quiet, in this state or in any other
  one, with or without remembered results, if they stay within the limit.
* So lookaheads never move the furthest failure.
* A rule with a name for error messages whose result is not remembered is reported as missing where
  it starts, if it does not match; otherwise nothing is reported. -/
theorem quiet_is_silent (memoize tracing : Bool) (h : g.Later text (.fresh memoize tracing) run) :
    (∀ a : Application ν α, a.run = run → 0 < run.quiet →
      (a.answer g text).2.frontier = run.frontier ∧
      ∀ inner, g.MakesAll text a inner →
        inner.run.frontier = run.frontier ∧ (inner.answer g text).2.frontier = run.frontier) ∧
    (∀ memoize tracing other, g.Later text (.fresh memoize tracing) other →
      ∀ limit rule position scope,
        (g.apply text limit rule position scope run).1 ≠ .stopped .tooDeep →
        (g.apply text limit rule position scope { other with quiet := 0 }).1 ≠ .stopped .tooDeep →
        (g.apply text limit rule position scope run).1 =
          (g.apply text limit rule position scope { other with quiet := 0 }).1) ∧
    (∀ limit negative rule position scope,
      (g.apply text limit (.lookahead negative rule) position scope run).2.frontier =
      run.frontier) ∧
    ∀ x description position, (g.define x).errorName = some description →
      run.remembered? (run.key x position) = none →
      ∀ limit scope,
        ((g.apply text limit (.named x) position scope run).1 = .unmatched →
          (g.apply text limit (.named x) position scope run).2.frontier =
            (run.fail position description).frontier) ∧
        ((g.apply text limit (.named x) position scope run).1 ≠ .unmatched →
          (g.apply text limit (.named x) position scope run).2.frontier = run.frontier) := by
  have hs := h.sound_distinct.1
  refine ⟨fun a ha hquiet => ?_,
    fun memoize tracing other hother limit rule position scope hrun hout => ?_,
    frontier_lookahead hs,
    fun x description position hname hforgotten => frontier_named hs hname hforgotten⟩
  · subst ha
    have hstill : a.run.Still g text a.run.frontier := ⟨hs, hquiet, rfl⟩
    exact ⟨(hstill.answer a).frontier_eq, fun inner hinner =>
      ⟨(still_inside hstill hinner).frontier_eq,
        ((still_inside hstill hinner).answer inner).frontier_eq⟩⟩
  · have hsound : Run.Sound g text { other with quiet := 0 } :=
      ⟨Int.le_refl _, hother.sound_distinct.1.vouched⟩
    exact (yields_apply hs hrun).unique (yields_apply hsound hout)

end Grammar

namespace Program

/-- The state in which what is inside a lookahead starts, if that is all that is done. -/
def hushed : Run Phrase Node := (Run.fresh true false).hush 1

/-- A digit that is missing inside a lookahead, and one that is missing or there outside of it. -/
theorem quiet_is_silent_digit :
    grammar.Later (.ofString "x") (.fresh true false) hushed ∧ 0 < hushed.quiet ∧
      (grammar.apply (.ofString "x") 9 (.named .digit) 0 [] hushed).2.frontier = {} ∧
      (grammar.apply (.ofString "x") 9 (.named .digit) 0 [] hushed).1 =
        (grammar.apply (.ofString "x") 9 (.named .digit) 0 [] { hushed with quiet := 0 }).1 ∧
      (grammar.apply (.ofString "x") 9 (.lookahead true (.named .digit)) 0 []
        (.fresh true false)).2.frontier =
        {} ∧
      (grammar.apply (.ofString "x") 9 (.named .digit) 0 [] (.fresh true false)).2.frontier =
        ⟨0, ["digit"]⟩ ∧
      (grammar.apply (.ofString "7") 9 (.named .digit) 0 [] (.fresh true false)).2.frontier =
      {} := by
  have hlater : grammar.Later (.ofString "x") (.fresh true false) hushed :=
    .single (@Grammar.Passes.inward _ _ _ _ _ ⟨9, .lookahead true (.named .digit), 0, [], _⟩ _
      .lookahead)
  have hquiet : 0 < hushed.quiet := by decide
  obtain ⟨hsilent, hsame, -, -⟩ := grammar.quiet_is_silent (.ofString "x") true false hlater
  obtain ⟨-, -, hlooks, hreports⟩ := grammar.quiet_is_silent (.ofString "x") true false .refl
  obtain ⟨-, -, -, hmatches⟩ := grammar.quiet_is_silent (.ofString "7") true false .refl
  refine ⟨hlater, hquiet, ?_, ?_, hlooks 9 true (.named .digit) 0 [], ?_, ?_⟩
  · exact (hsilent ⟨9, .named .digit, 0, [], hushed⟩ rfl hquiet).1
  · exact hsame true false hushed hlater 9 (.named .digit) 0 [] nofun nofun
  · exact (hreports .digit "digit" 0 rfl rfl 9 []).1 rfl
  · exact (hmatches .digit "digit" 0 rfl rfl 9 []).2 nofun

end Program

end Packrat
