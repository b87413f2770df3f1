import Packrat.Proofs.Matching.Plain
set_option autoImplicit false
set_option relaxedAutoImplicit false

/-!
# Properties of all applications

Whatever a rule does is put together from outcomes, reports, work inside other work, and named
rules. What is kept by each of these ways holds of every application, however the text is read; what
one step does has to be looked at once only, form by form.

Applications under one limit may have to be compared with those under other limits. So properties
are those of families of actions, by their limit, at one limit.

## Main definitions

* `Packrat.Action.Compositional` — a property that is kept when actions are put together.

## Main results

* `Packrat.Action.Compositional.applyBy` — what is kept in that way, by one more step of the limit
  and by named rules, holds of every application.
-/

namespace Packrat

variable {ν α : Type} [DecidableEq ν]

/-- A property of families of actions at a limit that is kept when actions are put together.

* `pure` — it holds of an outcome without any work.
* `missing` — it holds of a report.
* `handle` — it is kept when something is done with an outcome, provided that an action which ran
  into its limit ends there.
* `within` — it is kept inside rules that want failures kept quiet, and inside named rules. -/
structure Action.Compositional (P : (β : Type) → (Nat → Action ν α β) → Nat → Prop) : Prop where
  pure : ∀ {β : Type} (outcome : Outcome α β) (limit : Nat), P β (fun _ run => (outcome, run)) limit
  missing : ∀ (position : Nat) (description : String) (limit : Nat),
    P (Match α) (fun _ run => run.missing position description) limit
  handle : ∀ {β γ : Type} {c : Nat → Action ν α β} {limit : Nat}, P β c limit →
    ∀ next : Outcome α β → Nat → Action ν α γ, (∀ outcome, P γ (next outcome) limit) →
    (∀ any run, next (.stopped .tooDeep) any run = (.stopped .tooDeep, run)) →
    P γ (fun limit => (c limit).handle fun outcome => next outcome limit) limit
  within : ∀ {β : Type} {c : Nat → Action ν α β} {limit : Nat}, P β c limit →
    ∀ {amount : Int}, 0 ≤ amount → ∀ deeper,
    P β (fun limit => (c limit).within amount deeper) limit

/-! ## The forms of rules, however a text is read -/

namespace Grammar

variable (g : Grammar ν α) (reading : Reading) (limit position : Nat) (scope : Scope)

/-- A set of characters looks at the character ahead, whatever text is read. -/
lemma applyBy_charSet (set : CharSet) :
    g.applyBy reading (limit + 1) (.charSet set) position scope =
      match reading.look position with
      | .nowhere => fun run => (.stopped (.flaw .outsideTheText), run)
      | .ending => fun run => run.missing position set.render
      | .char c => passOrMiss (set.contains c) position (position + 1) scope set.render := by
  funext run
  simp only [applyBy]
  cases reading.look position <;> rfl

/-- Any character is there unless the text ends; outside the text it passes unseen. -/
lemma applyBy_any :
    g.applyBy reading (limit + 1) .any position scope =
      match reading.look position with
      | .ending => fun run => run.missing position "any character"
      | .char _ | .nowhere => fun run => run.passed (position + 1) scope := by
  funext run
  simp only [applyBy]
  cases reading.look position <;> rfl

/-- The start of a line is a question to the text that is read. -/
lemma applyBy_lineStart :
    g.applyBy reading (limit + 1) .lineStart position scope =
      match reading.startsLine? position with
      | none => fun run => (.stopped (.flaw .outsideTheText), run)
      | some true => fun run => run.passed position scope
      | some false => fun run => (.unmatched, run) := by
  funext run
  simp only [applyBy]
  rcases reading.startsLine? position with _ | _ | _ <;> rfl

end Grammar

/-! ## Putting actions together -/

namespace Action.Compositional

variable {P : (β : Type) → (Nat → Action ν α β) → Nat → Prop} (h : Compositional P) {β γ : Type}

include h

/-- A property that goes through every kind of action goes through actions one behind the other. -/
lemma andThen {c : Nat → Action ν α β} {limit : Nat} (hc : P β c limit)
    (next : β → Nat → Action ν α γ) (hn : ∀ result, P γ (next result) limit) :
    P γ (fun limit run => (c limit run).andThen fun result => next result limit) limit := by
  have hh : P γ (fun limit => (c limit).handle fun outcome =>
      Action.onMatch (fun result => next result limit) outcome) limit := by
    refine h.handle hc
      (fun outcome limit => Action.onMatch (fun result => next result limit) outcome)
      (fun outcome => ?_) fun _ _ => rfl
    cases outcome with
    | matched result => exact hn result
    | unmatched | stopped _ => exact h.pure _ limit
  simpa only [← Action.andThen_eq_handle] using hh

/-- Such a property also goes through a second attempt where the first does not match. -/
lemma onMismatch {c other : Nat → Action ν α β} {limit : Nat} (hc : P β c limit)
    (ho : P β other limit) :
    P β (fun limit => (c limit).handle (Action.onMismatch (other limit))) limit := by
  refine h.handle hc (fun outcome limit => Action.onMismatch (other limit) outcome)
    (fun outcome => ?_) fun _ _ => rfl
  cases outcome with
  | unmatched => exact ho
  | matched _ | stopped _ => exact h.pure _ limit

/-- Such a property holds of a test that passes or is reported. -/
lemma passOrMiss (test : Bool) (position stop : Nat) (scope : Scope) (description : String)
    (limit : Nat) :
    P (Match α) (fun _ => Grammar.passOrMiss test position stop scope description) limit := by
  cases test
  · exact h.missing position description limit
  · exact h.pure _ limit

/-! ## Rows, choices and repetitions -/

section Matchers

variable {m : Nat → Matcher ν α} {limit : Nat}
  (hm : ∀ rule position scope, P (Match α) (fun limit => m limit rule position scope) limit)

include hm

/-- Such a property goes through a row of rules. -/
lemma applyParts : ∀ (rules : List (Rule ν α)) (position : Nat) (scope : Scope),
    P (Row α) (fun limit => (m limit).applyParts rules position scope) limit
  | [], _, _ => h.pure _ limit
  | rule :: rules, position, scope => by
    refine h.andThen (hm rule position scope) (fun first limit run =>
      ((m limit).applyParts rules first.stop first.scope run).andThen fun others run =>
        (.matched { others with values := first.value :: others.values }, run)) fun first => ?_
    exact h.andThen (applyParts rules first.stop first.scope) _ fun _ => h.pure _ limit

/-- Such a property goes through alternatives. -/
lemma applyChoice : ∀ (rules : List (Rule ν α)) (position : Nat) (scope : Scope),
    P (Match α) (fun limit => (m limit).applyChoice rules position scope) limit
  | [], _, _ => h.pure _ limit
  | rule :: rules, position, scope => by
    simp only [Matcher.applyChoice_cons]
    exact h.onMismatch (hm rule position scope) (applyChoice rules position scope)

/-- Such a property goes through the trips of a repetition. -/
lemma applyTrips (rule : Rule ν α) (least : Int) (most : Option Int) :
    ∀ (budget : Nat) (count : Int) (position : Nat) (scope : Scope),
      P (Trips α) (fun limit =>
        (m limit).applyTrips rule least most budget count position scope) limit
  | 0, _, _, _ => h.pure _ limit
  | budget + 1, count, position, scope => by
    simp only [Matcher.applyTrips_succ]
    split
    · exact h.pure _ limit
    · refine h.handle (hm rule position scope) (fun outcome limit =>
        (m limit).afterTrip rule least most budget count position scope outcome)
        (fun outcome => ?_) fun _ _ => rfl
      cases outcome with
      | unmatched | stopped _ => exact h.pure _ limit
      | matched first =>
        simp only [Matcher.afterTrip]
        split
        · exact h.pure _ limit
        · exact h.andThen
            (applyTrips rule least most budget (count + 1) first.stop first.scope) _
            fun _ => h.pure _ limit

/-- What is kept when actions are put together holds of the body of a named rule. -/
lemma applyBody (g : Grammar ν α) (x : ν) (position : Nat) :
    P (Match α) (fun limit => g.applyBody (m limit) x position) limit := by
  simp only [Grammar.applyBody_eq]
  refine h.within ?_ (g.hushing_nonneg x) 1
  simp only [Grammar.bodyAction]
  cases (g.define x).body with
  | error mistake => exact h.pure _ limit
  | ok body => exact hm body position []

end Matchers

/-! ## Applications -/

/-- What is kept when actions are put together, and holds one step of the limit further on, is kept
by every form of rule that is not a named one. -/
lemma applyBy_succ {g : Grammar ν α} {reading : Reading} {limit : Nat}
    (ih : ∀ rule position scope,
      P (Match α) (fun limit => g.applyBy reading limit rule position scope) limit)
    {rule : Rule ν α} (hrule : ∀ x, rule ≠ .named x) (position : Nat) (scope : Scope) :
    P (Match α) (fun limit => g.applyBy reading (limit + 1) rule position scope) limit := by
  cases rule with
  | named x => exact absurd rfl (hrule x)
  | literal s => exact h.passOrMiss (reading.hasAt s.toList position) _ _ _ _ limit
  | charSet set =>
    simp only [Grammar.applyBy_charSet]
    cases reading.look position with
    | nowhere => exact h.pure _ limit
    | ending => exact h.missing _ _ limit
    | char c => exact h.passOrMiss _ _ _ _ _ limit
  | any =>
    simp only [Grammar.applyBy_any]
    cases reading.look position with
    | ending => exact h.missing _ _ limit
    | char _ | nowhere => exact h.pure _ limit
  | lineStart =>
    simp only [Grammar.applyBy_lineStart]
    split <;> exact h.pure _ limit
  | sequence rules =>
    refine h.andThen (h.applyParts ih rules position scope) _ fun row => ?_
    split <;> exact h.pure _ limit
  | choice rules => exact h.applyChoice ih rules position scope
  | repetition rule least most =>
    refine h.andThen (h.applyTrips ih rule least most _ 0 position scope) _ fun trips => ?_
    split
    · exact h.pure _ limit
    · split <;> exact h.pure _ limit
  | optional rule =>
    simp only [Grammar.applyBy_optional]
    exact h.onMismatch (ih rule position scope) (h.pure _ limit)
  | lookahead negative rule =>
    simp only [Grammar.applyBy_lookahead]
    exact h.handle (h.within (ih rule position scope) (by decide) 0)
      (fun outcome _ run => (Grammar.afterLook negative position scope outcome, run))
      (fun _ => h.pure _ limit) fun _ _ => rfl
  | capture name rule => exact h.andThen (ih rule position scope) _ fun _ => h.pure _ limit
  | build builder rule =>
    refine h.andThen (ih rule position scope) _ fun result => ?_
    split <;> exact h.pure _ limit
  | bind name rule => exact h.andThen (ih rule position scope) _ fun _ => h.pure _ limit
  | backref name =>
    simp only [Grammar.applyBy_backref]
    split
    · exact h.pure _ limit
    · exact h.passOrMiss _ _ _ _ _ limit

/-- What is kept when actions are put together, by one more step of the limit, and when the body of
a named rule becomes the rule, holds of every application.

**Proof sketch.** Induction on the limit. Every form of rule is put together from applications under
the limit below and from reports. -/
theorem applyBy {g : Grammar ν α} {reading : Reading}
    (hzero : ∀ rule position scope,
      P (Match α) (fun limit => g.applyBy reading limit rule position scope) 0)
    (hstep : ∀ limit rule position scope,
      P (Match α) (fun limit => g.applyBy reading (limit + 1) rule position scope) limit →
      P (Match α) (fun limit => g.applyBy reading limit rule position scope) (limit + 1))
    (hone : ∀ x position scope,
      P (Match α) (fun limit => g.applyBy reading limit (.named x) position scope) 1)
    (hnamed : ∀ limit x position scope,
      P (Match α) (fun limit => g.applyBody (g.applyBy reading limit) x position) limit →
      P (Match α) (fun limit => g.applyBy reading limit (.named x) position scope) (limit + 2)) :
    ∀ limit rule position scope,
      P (Match α) (fun limit => g.applyBy reading limit rule position scope) limit
  | 0, rule, position, scope => hzero rule position scope
  | limit + 1, rule, position, scope => by
    have ih := applyBy hzero hstep hone hnamed limit
    by_cases hrule : ∃ x, rule = .named x
    · obtain ⟨x, rfl⟩ := hrule
      cases limit with
      | zero => exact hone x position scope
      | succ limit =>
        exact hnamed limit x position scope
          (h.applyBody (applyBy hzero hstep hone hnamed limit) g x position)
    · exact hstep limit rule position scope
        (h.applyBy_succ ih (fun x hx => hrule ⟨x, hx⟩) position scope)

end Action.Compositional

end Packrat
