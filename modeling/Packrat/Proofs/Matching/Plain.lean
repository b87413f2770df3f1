import Mathlib.Tactic.Lemma
import Packrat.Matching.Equations
import Packrat.Proofs.Matching.Reports
set_option autoImplicit false
set_option relaxedAutoImplicit false

/-!
# Matching without remembered results

As long as nothing is remembered, applying a rule always does the same thing: its outcome does not
depend on the state it starts in, and the state only hears the reports that are made on the way.
Those reports do not depend on the state either, except that they are not heard while failures are
kept quiet.

An *action* takes a state to an answer. Applications of rules are put together from a few kinds of
actions, and each way to put them together keeps this property.

## Main definitions

* `Packrat.Run.Heard` — the state behind some work in which reports were made.
* `Packrat.Action.Answers` — an action that always has the same outcome and makes the same reports.
* `Packrat.Action.Steady` — an action that does so for some outcome and reports.

## Main results

* `Packrat.Grammar.steady_apply` — without remembered results, applying a rule is steady.
-/

namespace Packrat

variable {ν α : Type} [DecidableEq ν]

/-- The state behind some work in which the given reports were made. -/
structure Run.Heard (reports : List Report) (before after : Run ν α) : Prop where
  frontier : after.frontier =
    if before.quiet = 0 then before.frontier.noteAll reports else before.frontier
  quiet : after.quiet = before.quiet
  depth : after.depth = before.depth

namespace Run.Heard

variable {reports more : List Report} {run before between after : Run ν α}

/-- Where nothing is done, nothing is heard. -/
lemma refl (run : Run ν α) : Run.Heard [] run run := ⟨by simp, rfl, rfl⟩

/-- The reports of two pieces of work are heard in order. -/
lemma trans (h : Run.Heard reports before between) (h' : Run.Heard more between after) :
    Run.Heard (reports ++ more) before after := by
  refine ⟨?_, h'.quiet.trans h.quiet, h'.depth.trans h.depth⟩
  rw [h'.frontier, h.frontier, h.quiet]
  split
  · rw [Frontier.noteAll_append]
  · rfl

/-- A failure is heard as a report. -/
lemma fail (run : Run ν α) (position : Nat) (description : String) :
    Run.Heard [(position, description)] run (run.fail position description) := by
  unfold Run.fail
  split <;> rename_i h <;> exact ⟨by simp [h, Frontier.noteAll], rfl, rfl⟩

/-- An entry of the trace is not heard. -/
lemma record (run : Run ν α) (event : Event ν) : Run.Heard [] run (run.record event) := by
  unfold Run.record
  split <;> exact ⟨by simp, rfl, rfl⟩

/-- A result that is remembered is not heard. -/
lemma remember (run : Run ν α) (key : Memo.Key ν) (result : Option (Ending α)) :
    Run.Heard [] run (run.remember key result) := ⟨by simp [Run.remember], rfl, rfl⟩

/-- Work inside rules that want failures kept quiet is not heard outside; other work is. -/
lemma within {amount : Int} {deeper : Nat} (hq : 0 ≤ run.quiet) (ha : 0 ≤ amount)
    (h : Run.Heard reports
      { run with quiet := run.quiet + amount, depth := run.depth + deeper } after) :
    Run.Heard (if amount = 0 then reports else []) run
      { after with quiet := after.quiet + -amount, depth := after.depth - deeper } := by
  refine ⟨?_, ?_, ?_⟩
  · rw [h.frontier]
    by_cases h0 : amount = 0
    · simp [h0]
    · have hne : run.quiet + amount ≠ 0 := by omega
      simp [h0, hne]
  · simp only [h.quiet]; omega
  · simp only [h.depth]; omega

end Run.Heard

/-- An action takes a state to an answer. -/
abbrev Action (ν α β : Type) [DecidableEq ν] := Run ν α → Answer ν α β

namespace Action

variable {β γ : Type}

/-- As long as nothing is remembered, the action has this outcome and makes these reports. -/
def Answers (c : Action ν α β) (outcome : Outcome α β) (reports : List Report) : Prop :=
  ∀ run, run.memo = none → 0 ≤ run.quiet →
    (c run).1 = outcome ∧ Run.Heard reports run (c run).2 ∧ (c run).2.memo = none

/-- As long as nothing is remembered, the action always does the same thing. -/
def Steady (c : Action ν α β) : Prop := ∃ outcome reports, c.Answers outcome reports

/-- What is done with an outcome in the state behind it. -/
def handle (c : Action ν α β) (next : Outcome α β → Action ν α γ) : Action ν α γ := fun run =>
  next (c run).1 (c run).2

/-- An action inside so many rules that want failures kept quiet and so many named rules. -/
def within (amount : Int) (deeper : Nat) (c : Action ν α β) : Action ν α β := fun run =>
  let answer := c { run with quiet := run.quiet + amount, depth := run.depth + deeper }
  (answer.1, { answer.2 with
    quiet := answer.2.quiet + -amount, depth := answer.2.depth - deeper })

/-! ## Putting actions together -/

/-- An outcome on its own is answered in silence. -/
lemma answers_pure (outcome : Outcome α β) :
    Answers (fun run : Run ν α => (outcome, run)) outcome [] :=
  fun run hm _ => ⟨rfl, .refl run, hm⟩

/-- What is missing is answered by a report. -/
lemma answers_missing (position : Nat) (description : String) :
    Answers (fun run : Run ν α => run.missing position description) .unmatched
      [(position, description)] := by
  intro run hm _
  refine ⟨rfl, .fail run position description, ?_⟩
  simp only [Run.missing, Run.fail]
  split <;> exact hm

/-- An action answers with what is done with its own outcome, and makes the reports of both in
order. -/
lemma Answers.handle {c : Action ν α β} {next : Outcome α β → Action ν α γ}
    {outcome : Outcome α β} {other : Outcome α γ} {reports more : List Report}
    (h : c.Answers outcome reports) (hn : (next outcome).Answers other more) :
    (c.handle next).Answers other (reports ++ more) := by
  intro run hm hq
  obtain ⟨ho, hh, hm'⟩ := h run hm hq
  obtain ⟨ho', hh', hm''⟩ := hn (c run).2 hm' (by rw [hh.quiet]; exact hq)
  rw [Action.handle, ho]
  exact ⟨ho', hh.trans hh', hm''⟩

/-- Inside a quiet rule an action has the same outcome, but its reports are not heard. -/
lemma Answers.within {c : Action ν α β} {outcome : Outcome α β} {reports : List Report}
    (h : c.Answers outcome reports) {amount : Int} (ha : 0 ≤ amount) (deeper : Nat) :
    (c.within amount deeper).Answers outcome (if amount = 0 then reports else []) := by
  intro run hm hq
  obtain ⟨ho, hh, hm'⟩ := h { run with quiet := run.quiet + amount, depth := run.depth + deeper }
    hm (by simp only; omega)
  exact ⟨ho, hh.within hq ha, hm'⟩

/-- An outcome on its own is steady. -/
lemma steady_pure (outcome : Outcome α β) : Steady (fun run : Run ν α => (outcome, run)) :=
  ⟨_, _, answers_pure outcome⟩

/-- A report is steady. -/
lemma steady_missing (position : Nat) (description : String) :
    Steady (fun run : Run ν α => run.missing position description) :=
  ⟨_, _, answers_missing position description⟩

/-- A steady action is handled steadily if every outcome is. -/
lemma Steady.handle {c : Action ν α β} {next : Outcome α β → Action ν α γ} (h : c.Steady)
    (hn : ∀ outcome, (next outcome).Steady) : (c.handle next).Steady := by
  obtain ⟨outcome, reports, h⟩ := h
  obtain ⟨other, more, hn⟩ := hn outcome
  exact ⟨_, _, h.handle hn⟩

/-- A steady action is steady inside other rules. -/
lemma Steady.within {c : Action ν α β} (h : c.Steady) {amount : Int} (ha : 0 ≤ amount)
    (deeper : Nat) : (c.within amount deeper).Steady := by
  obtain ⟨outcome, reports, h⟩ := h
  exact ⟨_, _, h.within ha deeper⟩

/-! ## The actions of a grammar -/

/-- What becomes of an outcome if only a result is gone on with. -/
def onMatch (next : β → Action ν α γ) : Outcome α β → Action ν α γ
  | .matched result => next result
  | .unmatched => fun run => (.unmatched, run)
  | .stopped cause => fun run => (.stopped cause, run)

/-- What becomes of an outcome if something else is tried where there is no match. -/
def onMismatch (other : Action ν α β) : Outcome α β → Action ν α β
  | .unmatched => other
  | outcome => fun run => (outcome, run)

/-- To go on after a match is to handle the outcome in a certain way. -/
lemma andThen_eq_handle (c : Action ν α β) (next : β → Action ν α γ) :
    (fun run => (c run).andThen next) = c.handle (onMatch next) := by
  funext run
  simp only [Action.handle, Answer.andThen]
  rcases c run with ⟨_ | _ | _, _⟩ <;> rfl

/-- A steady action goes on steadily if it does so after every result. -/
lemma Steady.andThen {c : Action ν α β} {next : β → Action ν α γ} (h : c.Steady)
    (hn : ∀ result, (next result).Steady) : Steady (fun run => (c run).andThen next) := by
  rw [andThen_eq_handle]
  refine h.handle fun outcome => ?_
  cases outcome with
  | matched result => exact hn result
  | unmatched | stopped _ => exact steady_pure _

/-- A steady action with a steady one to try instead is steady. -/
lemma Steady.onMismatch {c other : Action ν α β} (h : c.Steady) (ho : other.Steady) :
    (c.handle (Action.onMismatch other)).Steady := by
  refine h.handle fun outcome => ?_
  cases outcome with
  | unmatched => exact ho
  | matched _ | stopped _ => exact steady_pure _

end Action

/-- A matcher that is steady at every rule, position and scope. -/
def Matcher.Steady (m : Matcher ν α) : Prop :=
  ∀ rule position scope, Action.Steady (m rule position scope)

namespace Matcher

variable {m : Matcher ν α}

/-- A row of rules behind another one goes on where that has ended. -/
lemma applyParts_append (m : Matcher ν α) :
    ∀ (rules more : List (Rule ν α)) (position : Nat) (scope : Scope) (run : Run ν α),
      m.applyParts (rules ++ more) position scope run =
        Answer.andThen (m.applyParts rules position scope run) fun row run =>
        Answer.andThen (m.applyParts more row.stop row.scope run) fun others run =>
        (.matched { others with values := row.values ++ others.values }, run)
  | [], more, position, scope, run => by
    simp only [List.nil_append, applyParts, Answer.andThen]
    rcases m.applyParts more position scope run with ⟨_ | _ | _, _⟩ <;> rfl
  | rule :: rules, more, position, scope, run => by
    simp only [List.cons_append, applyParts]
    rcases m rule position scope run with ⟨first | _ | _, after⟩ <;> simp only [Answer.andThen]
    rw [applyParts_append m rules more]
    rcases m.applyParts rules first.stop first.scope after with ⟨row | _ | _, after⟩ <;>
      simp only [Answer.andThen]
    rcases m.applyParts more row.stop row.scope after with ⟨others | _ | _, after⟩ <;> rfl

/-- A choice applies its first alternative and tries the others where that does not match. -/
lemma applyChoice_cons (m : Matcher ν α) (rule : Rule ν α) (rules : List (Rule ν α))
    (position : Nat) (scope : Scope) :
    m.applyChoice (rule :: rules) position scope =
      Action.handle (m rule position scope)
        (Action.onMismatch (m.applyChoice rules position scope)) := by
  funext run
  rw [applyChoice, Action.handle]
  rcases m rule position scope run with ⟨_ | _ | _, _⟩ <;> rfl

/-- What a repetition does after a trip that ended in the given way. -/
def afterTrip (m : Matcher ν α) (rule : Rule ν α) (least : Int) (most : Option Int) (budget : Nat)
    (count : Int) (position : Nat) (scope : Scope) : Outcome α (Match α) → Action ν α (Trips α)
  | .unmatched => fun run => (.matched ⟨⟨[], position, scope⟩, count⟩, run)
  | .stopped cause => fun run => (.stopped cause, run)
  | .matched first => fun run =>
    if first.stop = position then
      (.matched ⟨⟨[first.value], position, first.scope⟩, max (count + 1) least⟩, run)
    else
      Answer.andThen
        (m.applyTrips rule least most budget (count + 1) first.stop first.scope run)
        fun others run => (.matched { others with values := first.value :: others.values }, run)

/-- As long as more trips are allowed, a repetition applies its rule and looks at the outcome. -/
lemma applyTrips_succ (m : Matcher ν α) (rule : Rule ν α) (least : Int) (most : Option Int)
    (budget : Nat) (count : Int) (position : Nat) (scope : Scope) :
    m.applyTrips rule least most (budget + 1) count position scope =
      if most.any fun most => decide (most ≤ count) then
        fun run => (.matched ⟨⟨[], position, scope⟩, count⟩, run)
      else
        Action.handle (m rule position scope)
          (m.afterTrip rule least most budget count position scope) := by
  funext run
  rw [applyTrips]
  split
  · rfl
  · simp only [Action.handle]
    rcases m rule position scope run with ⟨_ | _ | _, _⟩ <;> rfl

/-- A row of rules is steady. -/
lemma Steady.applyParts (h : m.Steady) :
    ∀ (rules : List (Rule ν α)) (position : Nat) (scope : Scope),
      Action.Steady (m.applyParts rules position scope)
  | [], _, _ => Action.steady_pure _
  | rule :: rules, position, scope =>
    (h rule position scope).andThen fun first =>
      (Steady.applyParts h rules first.stop first.scope).andThen fun _ => Action.steady_pure _

/-- Alternatives are steady. -/
lemma Steady.applyChoice (h : m.Steady) :
    ∀ (rules : List (Rule ν α)) (position : Nat) (scope : Scope),
      Action.Steady (m.applyChoice rules position scope)
  | [], _, _ => Action.steady_pure _
  | rule :: rules, position, scope => by
    rw [applyChoice_cons]
    exact (h rule position scope).onMismatch (Steady.applyChoice h rules position scope)

/-- The trips of a repetition are steady. -/
lemma Steady.applyTrips (h : m.Steady) (rule : Rule ν α) (least : Int) (most : Option Int) :
    ∀ (budget : Nat) (count : Int) (position : Nat) (scope : Scope),
      Action.Steady (m.applyTrips rule least most budget count position scope)
  | 0, _, _, _ => Action.steady_pure _
  | budget + 1, count, position, scope => by
    rw [applyTrips_succ]
    split
    · exact Action.steady_pure _
    · refine (h rule position scope).handle fun outcome => ?_
      cases outcome with
      | unmatched | stopped _ => exact Action.steady_pure _
      | matched first =>
        simp only [afterTrip]
        split
        · exact Action.steady_pure _
        · exact (Steady.applyTrips h rule least most budget _ first.stop first.scope).andThen
            fun _ => Action.steady_pure _

end Matcher

namespace Grammar

variable (g : Grammar ν α) (text : Text)

/-- The action of a rule that passes if a test succeeds, and otherwise misses something. -/
def passOrMiss (test : Bool) (position stop : Nat) (scope : Scope) (description : String) :
    Action ν α (Match α) := fun run =>
  if test then run.passed stop scope else run.missing position description

/-- A test is steady. -/
lemma steady_passOrMiss (test : Bool) (position stop : Nat) (scope : Scope)
    (description : String) :
    Action.Steady (passOrMiss test position stop scope description : Action ν α (Match α)) := by
  cases test
  · exact Action.steady_missing _ _
  · exact Action.steady_pure _

/-- A literal is a test of the characters ahead. -/
lemma apply_literal_eq (limit : Nat) (s : String) (position : Nat) (scope : Scope) :
    g.apply text (limit + 1) (.literal s) position scope =
      passOrMiss (text.hasAt s.toList position) position (position + s.length) scope (quote s) :=
  funext fun run => g.apply_literal text limit position scope run s

/-- A set is a test of the character ahead. -/
lemma apply_charSet_eq (limit : Nat) (set : CharSet) (position : Nat) (scope : Scope) :
    g.apply text (limit + 1) (.charSet set) position scope =
      passOrMiss ((text.char? position).any set.contains) position (position + 1) scope
        set.render :=
  funext fun run => g.apply_charSet text limit position scope run set

/-- Any character is a test for whether there is one. -/
lemma apply_any_eq (limit position : Nat) (scope : Scope) :
    g.apply text (limit + 1) .any position scope =
      passOrMiss (text.char? position).isSome position (position + 1) scope "any character" :=
  funext fun run => g.apply_any text limit position scope run

/-- The outcome at a place where a line may start. -/
def lineStartOutcome (position : Nat) (scope : Scope) : Outcome α (Match α) :=
  match text.startsLine? position with
  | none => .stopped (.flaw .outsideTheText)
  | some starts => if starts then .matched ⟨⟨position, none⟩, scope⟩ else .unmatched

/-- Whether a line starts is found out without a report, and may be a flaw. -/
lemma apply_lineStart_eq (limit position : Nat) (scope : Scope) :
    g.apply text (limit + 1) .lineStart position scope =
      fun run => (lineStartOutcome text position scope, run) := by
  funext run
  simp only [apply, applyBy, Text.reading, lineStartOutcome]
  cases text.startsLine? position with
  | none => rfl
  | some starts => cases starts <;> rfl

/-- A back-reference is a test of the characters ahead if a text is bound, whatever text is read. -/
lemma applyBy_backref (reading : Reading) (limit : Nat) (name : String) (position : Nat)
    (scope : Scope) :
    g.applyBy reading (limit + 1) (.backref name) position scope =
      match scope.lookup name with
      | none => fun run => (.stopped (.flaw (.unbound name)), run)
      | some bound =>
        passOrMiss (reading.hasAt bound.toList position) position (position + bound.length) scope
          (quote bound) := by
  funext run
  simp only [applyBy]
  cases scope.lookup name <;> rfl

/-- A back-reference is a test of the characters ahead if a text is bound. -/
lemma apply_backref_eq (limit : Nat) (name : String) (position : Nat) (scope : Scope) :
    g.apply text (limit + 1) (.backref name) position scope =
      match scope.lookup name with
      | none => fun run => (.stopped (.flaw (.unbound name)), run)
      | some bound =>
        passOrMiss (text.hasAt bound.toList position) position (position + bound.length) scope
          (quote bound) := g.applyBy_backref text.reading limit name position scope

/-- An option tries to pass where its rule does not match, whatever text is read. -/
lemma applyBy_optional (reading : Reading) (limit : Nat) (rule : Rule ν α) (position : Nat)
    (scope : Scope) :
    g.applyBy reading (limit + 1) (.optional rule) position scope =
      Action.handle (g.applyBy reading limit rule position scope)
        (Action.onMismatch fun run => run.passed position scope) := by
  funext run
  simp only [applyBy, Action.handle]
  rcases g.applyBy reading limit rule position scope run with ⟨_ | _ | _, _⟩ <;> rfl

/-- An option tries to pass where its rule does not match. -/
lemma apply_optional_eq (limit : Nat) (rule : Rule ν α) (position : Nat) (scope : Scope) :
    g.apply text (limit + 1) (.optional rule) position scope =
      Action.handle (g.apply text limit rule position scope)
        (Action.onMismatch fun run => run.passed position scope) :=
  g.applyBy_optional text.reading limit rule position scope

/-- What a lookahead makes of the outcome of its rule. -/
def afterLook (negative : Bool) (position : Nat) (scope : Scope) :
    Outcome α (Match α) → Outcome α (Match α)
  | .stopped cause => .stopped cause
  | .unmatched => if negative then .matched ⟨⟨position, none⟩, scope⟩ else .unmatched
  | .matched _ => if negative then .unmatched else .matched ⟨⟨position, none⟩, scope⟩

/-- A lookahead exceeds the limit only where its rule does. -/
lemma afterLook_ne_tooDeep {outcome : Outcome α (Match α)} (h : outcome ≠ .stopped .tooDeep)
    (negative : Bool) (position : Nat) (scope : Scope) :
    afterLook negative position scope outcome ≠ .stopped .tooDeep := by
  cases outcome with
  | stopped cause => exact h
  | matched result => cases negative <;> simp [afterLook]
  | unmatched => cases negative <;> simp [afterLook]

/-- A lookahead applies its rule quietly and then goes by its outcome alone, whatever text is read.
-/
lemma applyBy_lookahead (reading : Reading) (limit : Nat) (negative : Bool) (rule : Rule ν α)
    (position : Nat) (scope : Scope) :
    g.applyBy reading (limit + 1) (.lookahead negative rule) position scope =
      Action.handle (Action.within 1 0 (g.applyBy reading limit rule position scope))
        fun outcome run => (afterLook negative position scope outcome, run) := by
  funext run
  simp only [applyBy, Action.handle, Action.within]
  rcases hrun : g.applyBy reading limit rule position scope (run.hush 1) with
    ⟨_ | _ | _, after⟩ <;>
    simp only [Run.hush, Nat.add_zero] at hrun ⊢ <;> rw [hrun] <;> cases negative <;> rfl

/-- A lookahead applies its rule quietly and then goes by its outcome alone. -/
lemma apply_lookahead_eq (limit : Nat) (negative : Bool) (rule : Rule ν α) (position : Nat)
    (scope : Scope) :
    g.apply text (limit + 1) (.lookahead negative rule) position scope =
      Action.handle (Action.within 1 0 (g.apply text limit rule position scope))
        fun outcome run => (afterLook negative position scope outcome, run) :=
  g.applyBy_lookahead text.reading limit negative rule position scope

/-- What a repetition produces whose trips have produced the given values. -/
lemma repetitionValue_eq_ok_iff {rule : Rule ν α} {values : List (Option (Value α))}
    {value : Option (Value α)} :
    g.repetitionValue rule values = .ok value ↔
      ∃ producing, g.produces rule = .ok producing ∧
        value = if producing then some (.items (spliceValues values)) else none := by
  simp only [repetitionValue]
  cases g.produces rule with
  | error mistake => exact ⟨nofun, nofun⟩
  | ok producing =>
    constructor
    · rintro ⟨⟩
      exact ⟨producing, rfl, rfl⟩
    · rintro ⟨_, ⟨⟩, rfl⟩
      rfl

/-! ## Named rules -/

/-- The action of the body of a named rule. -/
def bodyAction (m : Matcher ν α) (x : ν) (position : Nat) : Action ν α (Match α) :=
  match (g.define x).body with
  | .error mistake => fun run => (.stopped (.flaw (.badRule mistake)), run)
  | .ok body => m body position []

/-- The number of rules that a named rule adds to those that want failures kept quiet. -/
def hushing (x : ν) : Int := if (g.define x).errorName.isSome then 1 else 0

omit [DecidableEq ν] in
/-- A named rule does not make anything louder. -/
lemma hushing_nonneg (x : ν) : 0 ≤ g.hushing x := by
  unfold hushing; split <;> omega

/-- The body of a named rule is applied one step deeper, and quietly if the rule has a name for
error messages. -/
lemma applyBody_eq (m : Matcher ν α) (x : ν) (position : Nat) :
    g.applyBody m x position = Action.within (g.hushing x) 1 (g.bodyAction m x position) := by
  funext run
  simp only [applyBody, Action.within, bodyAction, hushing, Run.hush]
  cases (g.define x).body <;> rfl

/-- The outcome of a named rule, given that of its body: nothing that was bound inside is left. -/
def inScope (scope : Scope) : Outcome α (Match α) → Outcome α (Match α)
  | .matched result => .matched ⟨result.toEnding, scope⟩
  | .unmatched => .unmatched
  | .stopped cause => .stopped cause

/-- What a named rule reports in the end, given the outcome of its body. -/
def closingReports (x : ν) (position : Nat) : Outcome α (Match α) → List Report
  | .unmatched => ((g.define x).errorName.map fun description => (position, description)).toList
  | _ => []

/-- The state that a named rule leaves behind that of its body. -/
def settleOutcome (key : Memo.Key ν) : Outcome α (Match α) → Run ν α → Run ν α
  | .matched result, run => g.settle key (some result.toEnding) run
  | .unmatched, run => g.settle key none run
  | .stopped _, run => run

/-- What is remembered once a named rule has ended in the given way. -/
def memoAfter (key : Memo.Key ν) : Outcome α (Match α) → Option (Memo ν α) → Option (Memo ν α)
  | .matched result, memo => memo.map (·.insert key (some result.toEnding))
  | .unmatched, memo => memo.map (·.insert key none)
  | .stopped _, memo => memo

/-- A named rule whose result is not remembered has its body applied. -/
lemma applyNamed_of_forgotten (m : Matcher ν α) (x : ν) (position : Nat) (scope : Scope)
    {run : Run ν α} (h : run.remembered? (run.key x position) = none) :
    g.applyNamed m x position scope run =
      let answer := g.applyBody m x position (run.record (.enter run.depth x position))
      (inScope scope answer.1, g.settleOutcome (run.key x position) answer.1 answer.2) := by
  simp only [applyNamed, h]
  rcases g.applyBody m x position (run.record (.enter run.depth x position)) with
    ⟨_ | _ | _, _⟩ <;> rfl

/-- Reporting how a named rule ended is heard in the state, and nothing else. -/
lemma heard_settleOutcome (key : Memo.Key ν) (outcome : Outcome α (Match α)) (run : Run ν α) :
    Run.Heard (g.closingReports key.name key.position outcome) run
      (g.settleOutcome key outcome run) := by
  cases outcome with
  | stopped cause => exact .refl run
  | matched result => exact (Run.Heard.record run _).trans (.remember _ _ _)
  | unmatched =>
    simp only [closingReports, settleOutcome, settle]
    cases (g.define key.name).errorName with
    | none => exact (Run.Heard.record run _).trans (.remember _ _ _)
    | some description =>
      exact ((Run.Heard.fail run key.position description).trans (.record _ _)).trans
        (.remember _ _ _)

/-- A report is not remembered. -/
lemma memo_fail (run : Run ν α) (position : Nat) (description : String) :
    (run.fail position description).memo = run.memo := by
  unfold Run.fail; split <;> rfl

/-- An entry of the trace is not remembered. -/
lemma memo_record (run : Run ν α) (event : Event ν) : (run.record event).memo = run.memo := by
  unfold Run.record; split <;> rfl

/-- Once a named rule has ended, its own result is remembered besides what was. -/
lemma memo_settleOutcome (key : Memo.Key ν) (outcome : Outcome α (Match α)) (run : Run ν α) :
    (g.settleOutcome key outcome run).memo = memoAfter key outcome run.memo := by
  cases outcome with
  | stopped cause => rfl
  | matched result => simp [settleOutcome, settle, memoAfter, Run.remember, memo_record]
  | unmatched =>
    cases h : (g.define key.name).errorName <;>
      simp [settleOutcome, settle, memoAfter, Run.remember, memo_record, memo_fail, h]

/-- As long as nothing is remembered, a named rule answers as its body does. -/
lemma answers_applyNamed {m : Matcher ν α} {x : ν} {position : Nat} (scope : Scope)
    {outcome : Outcome α (Match α)} {reports : List Report}
    (h : Action.Answers (g.applyBody m x position) outcome reports) :
    Action.Answers (g.applyNamed m x position scope) (inScope scope outcome)
      (reports ++ g.closingReports x position outcome) := by
  intro run hm hq
  have hr := Run.Heard.record run (.enter run.depth x position)
  obtain ⟨ho, hh, hm'⟩ := h _ ((memo_record _ _).trans hm) (by rw [hr.quiet]; exact hq)
  rw [g.applyNamed_of_forgotten m x position scope (by simp [Run.remembered?, hm])]
  simp only [ho]
  refine ⟨trivial, (hr.trans hh).trans (g.heard_settleOutcome (run.key x position) outcome _), ?_⟩
  rw [memo_settleOutcome, hm']
  cases outcome <;> rfl

/-- The body of a named rule is steady. -/
lemma steady_applyBody {m : Matcher ν α} (h : m.Steady) (x : ν) (position : Nat) :
    Action.Steady (g.applyBody m x position) := by
  rw [applyBody_eq]
  refine Action.Steady.within ?_ (g.hushing_nonneg x) 1
  unfold bodyAction
  split
  · exact Action.steady_pure _
  · exact h _ _ _

/-- Without remembered results, applying a rule is steady.

**Proof sketch.** Induction on the limit. Every form of rule is put together from applications under
the limit below and from reports, and each way to put actions together keeps them steady. -/
theorem steady_apply : ∀ limit, Matcher.Steady (g.apply text limit)
  | 0 => fun _ _ _ => Action.steady_pure _
  | limit + 1 => by
    have ih := steady_apply limit
    intro rule position scope
    cases rule with
    | literal s =>
      rw [apply_literal_eq]
      exact steady_passOrMiss _ _ _ _ _
    | charSet set =>
      rw [apply_charSet_eq]
      exact steady_passOrMiss _ _ _ _ _
    | any =>
      rw [apply_any_eq]
      exact steady_passOrMiss _ _ _ _ _
    | lineStart =>
      rw [apply_lineStart_eq]
      exact Action.steady_pure _
    | sequence rules =>
      refine (ih.applyParts rules position scope).andThen fun row => ?_
      split <;> exact Action.steady_pure _
    | choice rules => exact ih.applyChoice rules position scope
    | repetition rule least most =>
      refine (ih.applyTrips rule least most _ 0 position scope).andThen fun trips => ?_
      split
      · exact Action.steady_pure _
      · split <;> exact Action.steady_pure _
    | optional rule =>
      rw [apply_optional_eq]
      exact (ih rule position scope).onMismatch (Action.steady_pure _)
    | lookahead negative rule =>
      rw [apply_lookahead_eq]
      exact ((ih rule position scope).within (by decide) 0).handle fun _ => Action.steady_pure _
    | capture name rule => exact (ih rule position scope).andThen fun _ => Action.steady_pure _
    | build builder rule =>
      refine (ih rule position scope).andThen fun result => ?_
      split <;> exact Action.steady_pure _
    | bind name rule => exact (ih rule position scope).andThen fun _ => Action.steady_pure _
    | backref name =>
      rw [apply_backref_eq]
      split
      · exact Action.steady_pure _
      · exact steady_passOrMiss _ _ _ _ _
    | named x =>
      cases limit with
      | zero => exact Action.steady_pure _
      | succ limit =>
        obtain ⟨outcome, reports, h⟩ := g.steady_applyBody (steady_apply limit) x position
        exact ⟨_, _, g.answers_applyNamed scope h⟩

end Grammar

end Packrat
