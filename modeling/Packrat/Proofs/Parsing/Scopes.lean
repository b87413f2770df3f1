import Packrat.Proofs.Parsing.Memoization
set_option autoImplicit false
set_option relaxedAutoImplicit false

/-!
# What a rule reads of its scope

All that a rule can find out about its scope is which texts are bound to the names that it refers
back to. Where two scopes agree on these names, the rule does the same work and ends in the same
way, and the scopes that it leaves agree on them as before. Named rules start with nothing bound, so
names inside them do not count.

## Main definitions

* `Packrat.Rule.refers` — the names that a rule refers back to.
* `Packrat.Scope.Agree` — the same texts are bound to some names.
* `Packrat.Action.Akin` — actions that do the same work and have related results.

## Main results

* `Packrat.Grammar.akin_apply` — a rule does the same in scopes that agree on the names it refers
  back to.
* `Packrat.Grammar.Yields.akin` — it also means the same.
-/

namespace Packrat

variable {ν α β γ : Type}

/-! ## Names -/

/-- The names that a rule refers back to, outside named rules. -/
def Rule.refers : Rule ν α → List String
  | .backref name => [name]
  | .sequence rules | .choice rules => partsRefer rules
  | .repetition rule _ _ | .optional rule | .lookahead _ rule | .capture _ rule | .build _ rule
  | .bind _ rule => rule.refers
  | .literal _ | .charSet _ | .any | .lineStart | .named _ => []
where
  /-- The names that some rules refer back to. -/
  partsRefer : List (Rule ν α) → List String
    | [] => []
    | rule :: rules => rule.refers ++ partsRefer rules

/-- Two scopes in which the same texts, or none, are bound to the given names. -/
def Scope.Agree (names : List String) (scope other : Scope) : Prop :=
  ∀ name ∈ names, other.lookup name = scope.lookup name

namespace Scope.Agree

variable {names : List String} {scope between other : Scope}

/-- Scopes that agree with the same one agree. -/
lemma trans (h : Scope.Agree names scope between) (h' : Scope.Agree names between other) :
    Scope.Agree names scope other :=
  fun name hname => (h' name hname).trans (h name hname)

/-- Scopes still agree when the same text is bound to a name in both of them. -/
lemma cons (h : Scope.Agree names scope other) (bound : String × String) :
    Scope.Agree names (bound :: scope) (bound :: other) := by
  intro name hname
  obtain ⟨key, text⟩ := bound
  simp only [List.lookup_cons]
  split
  · rfl
  · exact h name hname

end Scope.Agree

/-! ## Actions that do the same -/

/-- Outcomes of the same kind whose results are related. -/
inductive Outcome.Related (related : β → β → Prop) : Outcome α β → Outcome α β → Prop
  | matched {result other : β} (h : related result other) :
      Related related (.matched result) (.matched other)
  | unmatched : Related related .unmatched .unmatched
  | stopped (cause : Stop α) : Related related (.stopped cause) (.stopped cause)

variable [DecidableEq ν]

/-- Actions that leave the same state behind, whatever the state in which they start, and whose
results are related. -/
def Action.Akin (related : β → β → Prop) (c d : Action ν α β) : Prop :=
  ∀ run, (d run).2 = (c run).2 ∧ Outcome.Related related (c run).1 (d run).1

namespace Action.Akin

variable {related : β → β → Prop} {carried : γ → γ → Prop}

/-- Outcomes that are related make kindred actions. -/
lemma pure {outcome other : Outcome α β} (h : Outcome.Related related outcome other) :
    Akin related (fun run : Run ν α => (outcome, run)) (fun run => (other, run)) :=
  fun _ => ⟨rfl, h⟩

/-- The same report is kindred to itself. -/
lemma missing {related : Match α → Match α → Prop} (position : Nat) (description : String) :
    Akin related (fun run : Run ν α => run.missing position description)
      (fun run => run.missing position description) := fun _ => ⟨rfl, .unmatched⟩

/-- The same test in two scopes is kindred to itself, if the scopes are related. -/
lemma passOrMiss {related : Match α → Match α → Prop} (test : Bool) (position stop : Nat)
    {scope other : Scope} (h : related ⟨⟨stop, none⟩, scope⟩ ⟨⟨stop, none⟩, other⟩)
    (description : String) :
    Akin related (Grammar.passOrMiss test position stop scope description : Action ν α (Match α))
      (Grammar.passOrMiss test position stop other description) := by
  cases test with
  | false => exact missing position description
  | true => exact pure (.matched h)

/-- What is done with the outcomes is kindred if the actions are, and what follows related outcomes
is. -/
lemma handle {c d : Action ν α β} {next other : Outcome α β → Action ν α γ} (h : c.Akin related d)
    (hn : ∀ outcome outcome', Outcome.Related related outcome outcome' →
      (next outcome).Akin carried (other outcome')) :
    (c.handle next).Akin carried (d.handle other) := by
  intro run
  obtain ⟨hrun, hout⟩ := h run
  rw [Action.handle, Action.handle, hrun]
  exact hn _ _ hout _

/-- Kindred actions are kindred inside other rules. -/
lemma within {c d : Action ν α β} (h : c.Akin related d) (amount : Int) (deeper : Nat) :
    (c.within amount deeper).Akin related (d.within amount deeper) := by
  intro run
  obtain ⟨hrun, hout⟩ := h { run with quiet := run.quiet + amount, depth := run.depth + deeper }
  exact ⟨by simp only [Action.within, hrun], hout⟩

/-- Kindred actions go on as kindred ones behind related results. -/
lemma andThen {c d : Action ν α β} {next other : β → Action ν α γ} (h : c.Akin related d)
    (hn : ∀ result result', related result result' → (next result).Akin carried (other result')) :
    Akin carried (fun run => (c run).andThen next) (fun run => (d run).andThen other) := by
  rw [andThen_eq_handle, andThen_eq_handle]
  refine h.handle fun outcome outcome' hout => ?_
  cases hout with
  | matched hresult => exact hn _ _ hresult
  | unmatched => exact pure .unmatched
  | stopped cause => exact pure (.stopped cause)

/-- Where kindred actions do not match, kindred actions may be tried instead. -/
lemma onMismatch {c d next other : Action ν α β} (h : c.Akin related d)
    (hn : next.Akin related other) :
    (c.handle (Action.onMismatch next)).Akin related (d.handle (Action.onMismatch other)) := by
  refine h.handle fun outcome outcome' hout => ?_
  cases hout with
  | matched hresult => exact pure (.matched hresult)
  | unmatched => exact hn
  | stopped cause => exact pure (.stopped cause)

end Action.Akin

/-! ## Rules in scopes that agree -/

/-- The same match, but for a scope that agrees with the other one. -/
def Match.Akin (names : List String) (result other : Match α) : Prop :=
  ∃ scope, result.scope.Agree names scope ∧ other = ⟨result.toEnding, scope⟩

/-- The same row, but for a scope that agrees with the other one. -/
def Row.Akin (names : List String) (row other : Row α) : Prop :=
  ∃ scope, row.scope.Agree names scope ∧ other = { row with scope }

/-- The same trips, but for a scope that agrees with the other one. -/
def Trips.Akin (names : List String) (trips other : Trips α) : Prop :=
  ∃ scope, trips.scope.Agree names scope ∧ other = { trips with scope }

namespace Matcher

variable {m : Matcher ν α} {names : List String}

variable (names) in
/-- A matcher under which a rule does the same in scopes that agree on the given names. -/
def Akin (m : Matcher ν α) (rule : Rule ν α) : Prop :=
  ∀ position (scope other : Scope), scope.Agree names other →
    Action.Akin (Match.Akin names) (m rule position scope) (m rule position other)

/-- A row of rules does the same in scopes that agree, if its parts do. -/
lemma Akin.applyParts :
    ∀ {rules : List (Rule ν α)}, (∀ rule ∈ rules, m.Akin names rule) → ∀ (position : Nat)
      (scope other : Scope), scope.Agree names other →
      Action.Akin (Row.Akin names) (m.applyParts rules position scope)
        (m.applyParts rules position other)
  | [], _, _, _, other, hscope => .pure (.matched ⟨other, hscope, rfl⟩)
  | rule :: rules, h, position, scope, other, hscope => by
    refine (h rule List.mem_cons_self position scope other hscope).andThen fun first _ hfirst => ?_
    obtain ⟨scope', hscope', rfl⟩ := hfirst
    refine (Akin.applyParts (fun rule hr => h rule (List.mem_cons_of_mem _ hr)) first.stop
      first.scope scope' hscope').andThen fun others _ hothers => ?_
    obtain ⟨scope'', hscope'', rfl⟩ := hothers
    exact .pure (.matched ⟨scope'', hscope'', rfl⟩)

/-- A choice does the same in scopes that agree, if its alternatives do. -/
lemma Akin.applyChoice :
    ∀ {rules : List (Rule ν α)}, (∀ rule ∈ rules, m.Akin names rule) → ∀ (position : Nat)
      (scope other : Scope), scope.Agree names other →
      Action.Akin (Match.Akin names) (m.applyChoice rules position scope)
        (m.applyChoice rules position other)
  | [], _, _, _, _, _ => .pure .unmatched
  | rule :: rules, h, position, scope, other, hscope => by
    rw [applyChoice_cons, applyChoice_cons]
    exact (h rule List.mem_cons_self position scope other hscope).onMismatch
      (Akin.applyChoice (fun rule hr => h rule (List.mem_cons_of_mem _ hr)) position scope other
        hscope)

/-- The trips of a repetition do the same in scopes that agree, if its rule does. -/
lemma Akin.applyTrips {rule : Rule ν α} (h : m.Akin names rule) (least : Int) (most : Option Int) :
    ∀ (budget : Nat) (count : Int) (position : Nat) (scope other : Scope), scope.Agree names other →
      Action.Akin (Trips.Akin names) (m.applyTrips rule least most budget count position scope)
        (m.applyTrips rule least most budget count position other)
  | 0, _, _, _, other, hscope => .pure (.matched ⟨other, hscope, rfl⟩)
  | budget + 1, count, position, scope, other, hscope => by
    rw [applyTrips_succ, applyTrips_succ]
    split
    · exact .pure (.matched ⟨other, hscope, rfl⟩)
    · refine (h position scope other hscope).handle fun outcome outcome' hout => ?_
      cases hout with
      | unmatched => exact .pure (.matched ⟨other, hscope, rfl⟩)
      | stopped cause => exact .pure (.stopped cause)
      | @matched first _ hfirst =>
        obtain ⟨scope', hscope', rfl⟩ := hfirst
        simp only [afterTrip]
        split
        · exact .pure (.matched ⟨scope', hscope', rfl⟩)
        · refine (Akin.applyTrips h least most budget _ first.stop first.scope scope'
            hscope').andThen
            fun others _ hothers => ?_
          obtain ⟨scope'', hscope'', rfl⟩ := hothers
          exact .pure (.matched ⟨scope'', hscope'', rfl⟩)

end Matcher

namespace Rule

omit [DecidableEq ν] in
/-- The names that a part refers back to are among those of all parts. -/
lemma refers_subset_partsRefer {rule : Rule ν α} :
    ∀ {rules : List (Rule ν α)}, rule ∈ rules → rule.refers ⊆ refers.partsRefer rules
  | _ :: _, hmem => by
    rcases List.mem_cons.1 hmem with rfl | hmem
    · exact List.subset_append_left _ _
    · exact List.Subset.trans (refers_subset_partsRefer hmem) (List.subset_append_right _ _)

end Rule

namespace Grammar

variable {g : Grammar ν α} {text : Text} {names : List String}

/-- A named rule finds out nothing about its scope, which is there again behind it. -/
lemma akin_applyNamed (m : Matcher ν α) (x : ν) (position : Nat) {scope other : Scope}
    (hscope : scope.Agree names other) :
    Action.Akin (Match.Akin names) (g.applyNamed m x position scope)
      (g.applyNamed m x position other) := by
  intro run
  cases hr : run.remembered? (run.key x position) with
  | some ending =>
    simp only [applyNamed, hr]
    cases ending with
    | none => exact ⟨rfl, .unmatched⟩
    | some ending => exact ⟨rfl, .matched ⟨other, hscope, rfl⟩⟩
  | none =>
    rw [g.applyNamed_of_forgotten m x position scope hr,
      g.applyNamed_of_forgotten m x position other hr]
    refine ⟨rfl, ?_⟩
    simp only
    cases (g.applyBody m x position (run.record (.enter run.depth x position))).1 with
    | matched result => exact .matched ⟨other, hscope, rfl⟩
    | unmatched => exact .unmatched
    | stopped cause => exact .stopped cause

variable (g text) in
/-- A rule does the same in scopes that agree on the names it refers back to, and leaves scopes that
agree on them.

**Proof sketch.** Induction on the limit, for all lists of names that contain those of the rule.
Only a back-reference looks at the scope, and what is bound on the way is the same text in both. -/
theorem akin_apply : ∀ limit (rule : Rule ν α), rule.refers ⊆ names →
    Matcher.Akin names (g.apply text limit) rule
  | 0, _, _ => fun _ _ _ _ => .pure (.stopped _)
  | limit + 1, rule, hnames => by
    intro position scope other hscope
    have hhere : Match.Akin names (⟨⟨position, none⟩, scope⟩ : Match α) ⟨⟨position, none⟩, other⟩ :=
      ⟨other, hscope, rfl⟩
    cases rule with
    | named x =>
      cases limit with
      | zero => exact .pure (.stopped _)
      | succ limit => exact akin_applyNamed (g.apply text limit) x position hscope
    | literal s =>
      rw [apply_literal_eq, apply_literal_eq]
      exact .passOrMiss _ _ _ ⟨other, hscope, rfl⟩ _
    | charSet set =>
      rw [apply_charSet_eq, apply_charSet_eq]
      exact .passOrMiss _ _ _ ⟨other, hscope, rfl⟩ _
    | any =>
      rw [apply_any_eq, apply_any_eq]
      exact .passOrMiss _ _ _ ⟨other, hscope, rfl⟩ _
    | lineStart =>
      rw [apply_lineStart_eq, apply_lineStart_eq]
      refine .pure ?_
      unfold lineStartOutcome
      split
      · exact .stopped _
      · split
        · exact .matched hhere
        · exact .unmatched
    | sequence rules =>
      have hparts : ∀ rule ∈ rules, Matcher.Akin names (g.apply text limit) rule := fun rule hr =>
        akin_apply limit rule (List.Subset.trans (Rule.refers_subset_partsRefer hr) hnames)
      refine (Matcher.Akin.applyParts hparts position scope other hscope).andThen
        fun row _ hrow => ?_
      obtain ⟨scope', hscope', rfl⟩ := hrow
      simp only
      split
      · exact .pure (.stopped _)
      · exact .pure (.matched ⟨scope', hscope', rfl⟩)
    | choice rules =>
      have hparts : ∀ rule ∈ rules, Matcher.Akin names (g.apply text limit) rule := fun rule hr =>
        akin_apply limit rule (List.Subset.trans (Rule.refers_subset_partsRefer hr) hnames)
      exact Matcher.Akin.applyChoice hparts position scope other hscope
    | repetition rule least most =>
      refine (Matcher.Akin.applyTrips (akin_apply limit rule hnames) least most _ 0 position
        scope other hscope).andThen fun trips _ htrips => ?_
      obtain ⟨scope', hscope', rfl⟩ := htrips
      simp only
      split
      · exact .pure .unmatched
      · split
        · exact .pure (.stopped _)
        · exact .pure (.matched ⟨scope', hscope', rfl⟩)
    | optional rule =>
      rw [apply_optional_eq, apply_optional_eq]
      exact (akin_apply limit rule hnames position scope other hscope).onMismatch
        (.pure (.matched hhere))
    | lookahead negative rule =>
      rw [apply_lookahead_eq, apply_lookahead_eq]
      refine ((akin_apply limit rule hnames position scope other hscope).within 1 0).handle
        fun outcome outcome' hout => .pure ?_
      cases hout with
      | stopped cause => exact .stopped cause
      | unmatched | matched _ =>
        cases negative
        all_goals first | exact .matched hhere | exact .unmatched
    | capture name rule =>
      refine (akin_apply limit rule hnames position scope other hscope).andThen
        fun result _ hresult => ?_
      obtain ⟨scope', hscope', rfl⟩ := hresult
      exact .pure (.matched ⟨scope', hscope', rfl⟩)
    | build builder rule =>
      refine (akin_apply limit rule hnames position scope other hscope).andThen
        fun result _ hresult => ?_
      obtain ⟨scope', hscope', rfl⟩ := hresult
      simp only
      split
      · exact .pure (.stopped _)
      · exact .pure (.matched ⟨scope', hscope', rfl⟩)
    | bind name rule =>
      refine (akin_apply limit rule hnames position scope other hscope).andThen
        fun result _ hresult => ?_
      obtain ⟨scope', hscope', rfl⟩ := hresult
      exact .pure (.matched ⟨_, hscope'.cons _, rfl⟩)
    | backref name =>
      have hlookup := hscope name (hnames List.mem_cons_self)
      rw [apply_backref_eq, apply_backref_eq, hlookup]
      split
      · exact .pure (.stopped _)
      · exact .passOrMiss _ _ _ ⟨other, hscope, rfl⟩ _

/-- A rule means the same in scopes that agree on the names it refers back to. -/
theorem Yields.akin {rule : Rule ν α} {position : Nat} {scope other : Scope}
    {outcome : Outcome α (Match α)} (h : g.Yields text rule position scope outcome)
    (hscope : scope.Agree rule.refers other) :
    ∃ outcome', g.Yields text rule position other outcome' ∧
      Outcome.Related (Match.Akin rule.refers) outcome outcome' := by
  obtain ⟨hne, limit, reports, hanswers⟩ := h
  obtain ⟨outcome', reports', hanswers'⟩ := g.steady_apply text limit rule position other
  have hrun := (hanswers (.fresh false false) rfl (Int.le_refl _)).1
  have hrun' := (hanswers' (.fresh false false) rfl (Int.le_refl _)).1
  have hrelated := (g.akin_apply text limit rule (List.Subset.refl _) position scope other hscope
    (.fresh false false)).2
  rw [hrun, hrun'] at hrelated
  refine ⟨outcome', ⟨?_, limit, reports', hanswers'⟩, hrelated⟩
  rintro rfl
  cases hrelated
  exact hne rfl

end Grammar

end Packrat
