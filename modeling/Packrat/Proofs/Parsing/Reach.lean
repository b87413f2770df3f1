import Packrat.Proofs.Parsing.Scopes
set_option autoImplicit false
set_option relaxedAutoImplicit false

/-!
# Where rules end

Values say nothing about where a rule matches and where it ends, and only references to bindings
look at the scope. Without these, where a rule ends is a function by recursion on the rule, once it
is known where each named rule ends. Captures, bindings and builders do not change it.

A parse may still stop, as values may not go together, or a limit may be exceeded; so what the
function says holds of applications that have an outcome at all.

## Main definitions

* `Packrat.Rule.reach` — where a rule ends, given where each named rule ends.
* `Packrat.Outcome.Reaches` — an outcome ends at a given place, if it is not that the parse stops.
* `Packrat.Grammar.Locates` — where each named rule ends is what it yields.

## Main results

* `Packrat.Grammar.exists_locates` — where each named rule ends is a matter of the text.
* `Packrat.Grammar.reaches_apply` — a rule without references to bindings ends there.
-/

namespace Packrat

variable {ν α β γ δ ε : Type}

/-! ## Places -/

/-- How many trips a repetition makes, as they count, and where the last one ends. -/
def reachTrips (step : Nat → Option Nat) (least : Int) (most : Option Int) :
    Nat → Int → Nat → Int × Nat
  | 0, count, position => (count, position)
  | budget + 1, count, position =>
    if most.any fun most => decide (most ≤ count) then (count, position)
    else
      match step position with
      | none => (count, position)
      | some stop =>
        if stop = position then (max (count + 1) least, position)
        else reachTrips step least most budget (count + 1) stop

/-- Where a rule ends at a position of a text, if it matches, given where each named rule ends. What
is bound to a name is not known here, so a reference to it does not match. -/
def Rule.reach (text : Text) (env : ν → Nat → Option Nat) : Rule ν α → Nat → Option Nat
  | .literal s, position =>
    if text.hasAt s.toList position then some (position + s.length) else none
  | .charSet set, position =>
    if (text.char? position).any set.contains then some (position + 1) else none
  | .any, position => if (text.char? position).isSome then some (position + 1) else none
  | .lineStart, position => if (text.startsLine? position).getD false then some position else none
  | .sequence rules, position => reachParts rules position
  | .choice rules, position => reachChoice rules position
  | .repetition rule least most, position =>
    let trips := reachTrips (reach text env rule) least most (text.size - position + 1) 0 position
    if trips.1 < least then none else some trips.2
  | .optional rule, position => (reach text env rule position).or (some position)
  | .lookahead negative rule, position =>
    if (reach text env rule position).isSome = negative then none else some position
  | .capture _ rule, position | .build _ rule, position | .bind _ rule, position =>
    reach text env rule position
  | .backref _, _ => none
  | .named x, position => env x position
where
  /-- Where rules end one behind the other. -/
  reachParts : List (Rule ν α) → Nat → Option Nat
    | [], position => some position
    | rule :: rules, position => (reach text env rule position).bind (reachParts rules)
  /-- Where the first rule that matches ends. -/
  reachChoice : List (Rule ν α) → Nat → Option Nat
    | [], _ => none
    | rule :: rules, position => (reach text env rule position).or (reachChoice rules position)

/-- An outcome that ends at the given place, or not at all if none is given; or the parse stops. -/
inductive Outcome.Reaches (place : β → δ) : Outcome α β → Option δ → Prop
  | matched (result : β) : Reaches place (.matched result) (some (place result))
  | unmatched : Reaches place .unmatched none
  | stopped (cause : Stop α) (reached : Option δ) : Reaches place (.stopped cause) reached

/-! ## Actions that end at given places -/

variable [DecidableEq ν]

/-- As long as nothing is remembered, the action ends at the given place. -/
def Action.Reaches (place : β → δ) (c : Action ν α β) (reached : Option δ) : Prop :=
  ∃ outcome reports, c.Answers outcome reports ∧ outcome.Reaches place reached

namespace Action.Reaches

variable {place : β → δ} {goal : γ → ε} {reached : Option δ} {final : Option ε}

/-- An outcome on its own ends where it ends. -/
lemma pure {outcome : Outcome α β} (h : outcome.Reaches place reached) :
    Action.Reaches place (fun run : Run ν α => (outcome, run)) reached :=
  ⟨outcome, [], Action.answers_pure outcome, h⟩

/-- What is missing ends nowhere. -/
lemma missing {place : Match α → δ} (position : Nat) (description : String) :
    Action.Reaches place (fun run : Run ν α => run.missing position description) none :=
  ⟨.unmatched, _, Action.answers_missing position description, .unmatched⟩

/-- A test that is passed ends at its stop, and otherwise nowhere. -/
lemma passOrMiss (test : Bool) (position stop : Nat) (scope : Scope) (description : String) :
    Action.Reaches (·.stop)
      (Grammar.passOrMiss test position stop scope description : Action ν α (Match α))
      (if test then some stop else none) := by
  cases test with
  | false => exact missing position description
  | true => exact pure (.matched _)

/-- An action ends where what is done with its outcome does. -/
lemma handle {c : Action ν α β} {next : Outcome α β → Action ν α γ} (h : c.Reaches place reached)
    (hn : ∀ outcome, outcome.Reaches place reached → (next outcome).Reaches goal final) :
    (c.handle next).Reaches goal final := by
  obtain ⟨outcome, reports, hanswers, hout⟩ := h
  obtain ⟨other, more, hnext, hother⟩ := hn outcome hout
  exact ⟨other, reports ++ more, hanswers.handle hnext, hother⟩

/-- Inside other rules an action ends where it did. -/
lemma within {c : Action ν α β} (h : c.Reaches place reached) {amount : Int} (hamount : 0 ≤ amount)
    (deeper : Nat) : (c.within amount deeper).Reaches place reached := by
  obtain ⟨outcome, reports, hanswers, hout⟩ := h
  exact ⟨outcome, _, hanswers.within hamount deeper, hout⟩

/-- Actions one behind the other end where the second does, from where the first one ends. -/
lemma andThen {c : Action ν α β} {next : β → Action ν α γ} {more : δ → Option ε}
    (h : c.Reaches place reached)
    (hn : ∀ result, (next result).Reaches goal (more (place result))) :
    Action.Reaches goal (fun run => (c run).andThen next) (reached.bind more) := by
  rw [Action.andThen_eq_handle]
  refine h.handle fun outcome hout => ?_
  cases hout with
  | matched result => exact hn result
  | unmatched => exact pure .unmatched
  | stopped cause => exact pure (.stopped cause _)

/-- What does not change where something ends. -/
lemma carry {c : Action ν α β} {next : β → Action ν α γ} {goal : γ → δ}
    (h : c.Reaches place reached)
    (hn : ∀ result, (next result).Reaches goal (some (place result))) :
    Action.Reaches goal (fun run => (c run).andThen next) reached := by
  have hcarried := h.andThen hn
  rwa [Option.bind_fun_some] at hcarried

/-- Where one action ends nowhere, it ends where the one ends that is tried instead. -/
lemma onMismatch {c other : Action ν α β} {reached' : Option δ} (h : c.Reaches place reached)
    (ho : other.Reaches place reached') :
    (c.handle (Action.onMismatch other)).Reaches place (reached.or reached') := by
  refine h.handle fun outcome hout => ?_
  cases hout with
  | matched result => exact pure (.matched result)
  | unmatched => exact ho
  | stopped cause => exact pure (.stopped cause _)

end Action.Reaches

/-! ## Rows, choices and repetitions -/

namespace Matcher

variable {m : Matcher ν α} {text : Text} {env : ν → Nat → Option Nat}

variable (text env) in
/-- Under the matcher, the rule ends where it is said to. -/
def Reaches (m : Matcher ν α) (rule : Rule ν α) : Prop :=
  ∀ position scope, Action.Reaches (·.stop) (m rule position scope) (rule.reach text env position)

/-- A row of rules ends where its parts lead, one from the end of the other. -/
lemma Reaches.applyParts : ∀ {rules : List (Rule ν α)}, (∀ rule ∈ rules, m.Reaches text env rule) →
    ∀ (position : Nat) (scope : Scope), Action.Reaches (·.stop) (m.applyParts rules position scope)
      (Rule.reach.reachParts text env rules position)
  | [], _, _, _ => .pure (.matched _)
  | rule :: rules, h, position, scope => by
    refine (h rule List.mem_cons_self position scope).andThen fun first => ?_
    exact (Reaches.applyParts (fun rule hrule => h rule (List.mem_cons_of_mem _ hrule)) first.stop
      first.scope).carry fun others => .pure (.matched _)

/-- A choice ends where the first alternative does that ends anywhere. -/
lemma Reaches.applyChoice : ∀ {rules : List (Rule ν α)}, (∀ rule ∈ rules, m.Reaches text env rule) →
    ∀ (position : Nat) (scope : Scope), Action.Reaches (·.stop) (m.applyChoice rules position scope)
      (Rule.reach.reachChoice text env rules position)
  | [], _, _, _ => .pure .unmatched
  | rule :: rules, h, position, scope => by
    rw [applyChoice_cons]
    exact (h rule List.mem_cons_self position scope).onMismatch
      (Reaches.applyChoice (fun rule hrule => h rule (List.mem_cons_of_mem _ hrule)) position scope)

/-- The trips of a repetition are as many, and end there, as the ends of its rule tell. -/
lemma Reaches.applyTrips {rule : Rule ν α} (h : m.Reaches text env rule) (least : Int)
    (most : Option Int) :
    ∀ (budget : Nat) (count : Int) (position : Nat) (scope : Scope),
      Action.Reaches (fun trips => (trips.count, trips.stop))
        (m.applyTrips rule least most budget count position scope)
        (some (reachTrips (rule.reach text env) least most budget count position))
  | 0, _, _, _ => .pure (.matched _)
  | budget + 1, count, position, scope => by
    rw [applyTrips_succ, reachTrips]
    split
    · exact .pure (.matched _)
    · refine (h position scope).handle fun outcome hout => ?_
      generalize rule.reach text env position = reached at hout
      cases hout with
      | unmatched => exact .pure (.matched _)
      | stopped cause => exact .pure (.stopped cause _)
      | matched first =>
        simp only [afterTrip]
        split
        · exact .pure (.matched _)
        · exact (Reaches.applyTrips h least most budget (count + 1) first.stop first.scope).carry
            fun others => .pure (.matched _)

end Matcher

/-! ## Named rules -/

namespace Grammar

variable {g : Grammar ν α} {text : Text} {env : ν → Nat → Option Nat}

/-- Where a named rule ends does not depend on what is bound. -/
lemma stop_of_yields {x : ν} {position : Nat} {scope other : Scope} {result result' : Match α}
    (h : g.Yields text (.named x) position scope (.matched result))
    (h' : g.Yields text (.named x) position other (.matched result')) :
    result.stop = result'.stop := by
  obtain ⟨outcome, hyields, hrelated⟩ := h.akin (fun name hname => absurd hname List.not_mem_nil)
  obtain rfl := hyields.unique h'
  cases hrelated with
  | matched hakin =>
    obtain ⟨_, -, rfl⟩ := hakin
    rfl

/-- Whether a named rule matches does not depend on what is bound. -/
lemma ne_matched_of_yields {x : ν} {position : Nat} {scope other : Scope} {result : Match α}
    (h : g.Yields text (.named x) position scope .unmatched) :
    ¬ g.Yields text (.named x) position other (.matched result) := by
  intro h'
  obtain ⟨outcome, hyields, hrelated⟩ := h.akin (fun name hname => absurd hname List.not_mem_nil)
  obtain rfl := hyields.unique h'
  cases hrelated

variable (g text) in
/-- Where each named rule ends is what it yields. -/
def Locates (env : ν → Nat → Option Nat) : Prop :=
  ∀ x position scope outcome, g.Yields text (.named x) position scope outcome →
    outcome.Reaches (·.stop) (env x position)

/-- Where each named rule ends is a matter of the text.

**Proof sketch.** A named rule yields one outcome at a position, whatever is bound, but for the
scope behind it. -/
theorem exists_locates (g : Grammar ν α) (text : Text) : ∃ env, g.Locates text env := by
  have hexists : ∀ x position, ∃ reached, ∀ scope outcome,
      g.Yields text (.named x) position scope outcome →
      outcome.Reaches (·.stop) reached := by
    intro x position
    by_cases h : ∃ scope result, g.Yields text (.named x) position scope (.matched result)
    · obtain ⟨scope, result, hmatched⟩ := h
      refine ⟨some result.stop, fun other outcome hyields => ?_⟩
      cases outcome with
      | stopped cause => exact .stopped cause _
      | matched result' =>
        rw [stop_of_yields hmatched hyields]
        exact .matched result'
      | unmatched => exact absurd hmatched (ne_matched_of_yields hyields)
    · refine ⟨none, fun scope outcome hyields => ?_⟩
      cases outcome with
      | stopped cause => exact .stopped cause _
      | matched result => exact absurd ⟨scope, result, hyields⟩ h
      | unmatched => exact .unmatched
  exact ⟨fun x position => (hexists x position).choose,
    fun x position => (hexists x position).choose_spec⟩

variable (henv : g.Locates text env)

include henv

/-- A rule without references to bindings ends where its parts do.

**Proof sketch.** Induction on the limit. -/
lemma reaches (limit : Nat) : ∀ rule : Rule ν α, rule.refers = [] →
    Matcher.Reaches text env (g.apply text limit) rule := by
  induction limit with
  | zero => exact fun rule _ position scope => .pure (.stopped _ _)
  | succ limit ih =>
    intro rule hrefers position scope
    have hparts : ∀ {rules : List (Rule ν α)}, Rule.refers.partsRefer rules = [] →
        ∀ part ∈ rules, Matcher.Reaches text env (g.apply text limit) part :=
          fun hnone part hpart =>
      ih part (List.subset_nil.1 (hnone ▸ Rule.refers_subset_partsRefer hpart))
    cases rule with
    | literal s =>
      rw [apply_literal_eq]
      exact .passOrMiss _ _ _ _ _
    | charSet set =>
      rw [apply_charSet_eq]
      exact .passOrMiss _ _ _ _ _
    | any =>
      rw [apply_any_eq]
      exact .passOrMiss _ _ _ _ _
    | lineStart =>
      rw [apply_lineStart_eq]
      refine .pure ?_
      rw [lineStartOutcome, Rule.reach]
      rcases text.startsLine? position with _ | _ | _
      · exact .stopped _ _
      · exact .unmatched
      · exact .matched _
    | sequence rules =>
      refine (Matcher.Reaches.applyParts (hparts hrefers) position scope).carry fun row => ?_
      split
      · exact .pure (.stopped _ _)
      · exact .pure (.matched _)
    | choice rules => exact Matcher.Reaches.applyChoice (hparts hrefers) position scope
    | repetition rule least most =>
      have hreach : (Rule.repetition rule least most).reach text env position =
          (some (reachTrips (rule.reach text env) least most (text.size - position + 1) 0
            position)).bind
            fun trips => if trips.1 < least then none else some trips.2 := rfl
      rw [hreach]
      refine (Matcher.Reaches.applyTrips (ih rule hrefers) least most _ 0 position scope).andThen
        fun trips => ?_
      split
      · exact .pure .unmatched
      · split
        · exact .pure (.stopped _ _)
        · exact .pure (.matched _)
    | optional rule =>
      rw [apply_optional_eq]
      exact (ih rule hrefers position scope).onMismatch (.pure (.matched _))
    | lookahead negative rule =>
      rw [apply_lookahead_eq, Rule.reach]
      refine ((ih rule hrefers position scope).within (by decide) 0).handle fun outcome hout =>
        .pure ?_
      generalize rule.reach text env position = reached at hout
      cases hout with
      | stopped cause => exact .stopped cause _
      | unmatched | matched _ =>
        cases negative
        all_goals first | exact .matched _ | exact .unmatched
    | capture name rule => exact (ih rule hrefers position scope).carry fun _ => .pure (.matched _)
    | build builder rule =>
      refine (ih rule hrefers position scope).carry fun result => ?_
      split
      · exact .pure (.stopped _ _)
      · exact .pure (.matched _)
    | bind name rule => exact (ih rule hrefers position scope).carry fun _ => .pure (.matched _)
    | backref name => cases hrefers
    | named x =>
      obtain ⟨outcome, reports, hanswers⟩ :=
        g.steady_apply text (limit + 1) (.named x) position scope
      refine ⟨outcome, reports, hanswers, ?_⟩
      by_cases htooDeep : outcome = .stopped .tooDeep
      · rw [htooDeep]
        exact .stopped _ _
      · exact henv x position scope outcome ⟨htooDeep, limit + 1, reports, hanswers⟩

/-- A rule without references to bindings ends where it is said to, from every sound state and under
every limit. -/
theorem reaches_apply {rule : Rule ν α} (hrefers : rule.refers = []) (limit position : Nat)
    (scope : Scope) {run : Run ν α} (hrun : run.Sound g text) :
    (g.apply text limit rule position scope run).1.Reaches (·.stop)
    (rule.reach text env position) := by
  by_cases htooDeep : (g.apply text limit rule position scope run).1 = .stopped .tooDeep
  · rw [htooDeep]
    exact .stopped _ _
  · obtain ⟨-, limit', reports, hanswers⟩ := yields_apply hrun htooDeep
    obtain ⟨outcome, reports', hanswers', hout⟩ := reaches henv limit' rule hrefers position scope
    have hone := (hanswers (.fresh false false) rfl (Int.le_refl _)).1
    have hother := (hanswers' (.fresh false false) rfl (Int.le_refl _)).1
    rwa [← hone, hother]

end Grammar

end Packrat
