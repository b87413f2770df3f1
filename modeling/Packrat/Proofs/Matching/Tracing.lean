import Mathlib.Logic.ExistsUnique
import Packrat.Parsing.Parse
import Packrat.Program.Grammar
import Packrat.Proofs.Matching.Inner
set_option autoImplicit false
set_option relaxedAutoImplicit false

/-!
# Traces are properly nested

A trace has one event where a named rule is entered and one where it is left. Whatever a rule does
in between, the events of an application that comes to an end are those of visits, one behind the
other: each visit is entered, then come the visits made inside it, one step deeper, and then it is
left. A result that is remembered is no visit.

## Main definitions

* `Packrat.Application.Visits` — an application that visits a named rule, and how it ends.
* `Packrat.Grammar.Nested` — the events of visits one behind the other and inside each other.
* `Packrat.Grammar.Paired` — two events at which a visit begins and ends.
* `Packrat.Grammar.Emits` — a state behind some applications and the events that these have added.

## Main results

* `Packrat.Grammar.Nested.exists_paired` — among nested events each one belongs to a pair.
* `Packrat.Grammar.traced_apply` — what an application adds to the trace is nested.
* `Packrat.Grammar.trace_nested` — the trace is a properly nested record of the matching.
-/

namespace Packrat

variable {ν α : Type} [DecidableEq ν]

/-- Whether the outcome is that the whole parse stops. -/
def Outcome.isStopped {β : Type} : Outcome α β → Bool
  | .stopped _ => true
  | _ => false

/-- How an application came to an end, as a trace tells it: where its match ends, if it is one. -/
def Outcome.told? : Outcome α (Match α) → Option (Option Nat)
  | .matched result => some (some result.stop)
  | .unmatched => some none
  | .stopped _ => none

/-- The application visits a named rule at a position, inside so many named rules, and comes to the
given end there. -/
structure Application.Visits (visit : Application ν α) (g : Grammar ν α) (text : Text) (depth : Nat)
    (x : ν) (position : Nat) (stop : Option Nat) : Prop where
  rule : visit.rule = .named x
  position : visit.position = position
  depth : visit.run.depth = depth
  told : (visit.answer g text).1.told? = some stop

namespace Grammar

variable (g : Grammar ν α) (text : Text)

/-- The events of visits that are among the given applications, one behind the other. Between the
two events of a visit are those of the visits made inside it. -/
inductive Nested : (Application ν α → Prop) → Nat → List (Event ν) → Prop
  | nil {made : Application ν α → Prop} {depth : Nat} : Nested made depth []
  | visit {made : Application ν α → Prop} {depth position : Nat} {visit : Application ν α} {x : ν}
      {stop : Option Nat} {inside rest : List (Event ν)} (hmade : made visit)
      (hvisits : visit.Visits g text depth x position stop)
      (hinside : Nested (g.MakesAll text visit) (depth + 1) inside)
      (hrest : Nested made depth rest) :
      Nested made depth
        (.enter depth x position :: inside ++ .leave depth x position stop :: rest)

/-- A visit that is among the given applications begins at the first event and ends at the second
one, and all events in between are deeper. -/
structure Paired (made : Application ν α → Prop) (es : List (Event ν)) (i j : Nat) : Prop where
  lt : i < j
  visits : ∃ visit depth x position stop, made visit ∧ visit.Visits g text depth x position stop ∧
    es[i]? = some (.enter depth x position) ∧ es[j]? = some (.leave depth x position stop) ∧
    ∀ k e, i < k → k < j → es[k]? = some e → depth < e.depth

/-- Applications lead from the first state to the second one, and have added nested events to the
trace, if there is one. -/
def Emits (made : Application ν α → Prop) (run after : Run ν α) : Prop :=
  after.depth = run.depth ∧
    ∃ es, after.trace = run.trace.map (es.reverse ++ ·) ∧ g.Nested text made run.depth es

variable {g text}

/-! ## Nested events -/

namespace Nested

variable {made others : Application ν α → Prop} {depth : Nat} {es more : List (Event ν)}

/-- Nested visits of some applications are nested visits of more of them. -/
lemma mono (h : g.Nested text made depth es) (hmade : ∀ visit, made visit → others visit) :
    g.Nested text others depth es := by
  induction h with
  | nil => exact .nil
  | visit hmade' hvisits hinside _ _ ih => exact .visit (hmade _ hmade') hvisits hinside (ih hmade)

/-- Nested events behind nested events are nested. -/
lemma append (h : g.Nested text made depth es) (h' : g.Nested text made depth more) :
    g.Nested text made depth (es ++ more) := by
  induction h with
  | nil => exact h'
  | visit hmade hvisits hinside _ _ ih =>
    simpa only [List.cons_append, List.append_assoc] using .visit hmade hvisits hinside (ih h')

/-- The events of visits at a depth are at least so deep. -/
lemma le_depth (h : g.Nested text made depth es) : ∀ e ∈ es, depth ≤ e.depth := by
  induction h with
  | nil => exact nofun
  | @visit made depth position visit x stop inside rest _ _ _ _ hin hout =>
    intro e he
    simp only [List.cons_append, List.mem_cons, List.mem_append] at he
    rcases he with rfl | he | rfl | he
    · exact Nat.le_refl _
    · exact Nat.le_of_succ_le (hin e he)
    · exact Nat.le_refl _
    · exact hout e he

end Nested

/-! ## Pairs of events -/

namespace Paired

variable {made others : Application ν α → Prop} {es : List (Event ν)} {i j k : Nat}

/-- A pair of events of some applications is one of more of them. -/
lemma mono (h : g.Paired text made es i j) (hmade : ∀ visit, made visit → others visit) :
    g.Paired text others es i j := by
  obtain ⟨hlt, visit, depth, x, position, stop, hvisit, hpair⟩ := h
  exact ⟨hlt, visit, depth, x, position, stop, hmade visit hvisit, hpair⟩

/-- What stands in front of a pair and behind it does not matter. -/
lemma between (h : g.Paired text made es i j) (before behind : List (Event ν)) :
    g.Paired text made (before ++ es ++ behind) (before.length + i) (before.length + j) := by
  obtain ⟨hlt, visit, depth, x, position, stop, hvisit, hvisits, henter, hleave, hdeeper⟩ := h
  have hj : j < es.length := (List.getElem?_eq_some_iff.1 hleave).1
  have hshift : ∀ k < es.length, (before ++ es ++ behind)[before.length + k]? = es[k]? := by
    intro k hk
    rw [List.append_assoc, List.getElem?_append_right (by omega), Nat.add_sub_cancel_left,
      List.getElem?_append_left hk]
  refine ⟨by omega, visit, depth, x, position, stop, hvisit, hvisits, ?_, ?_,
    fun k e hi hk he => ?_⟩
  · rw [hshift i (by omega), henter]
  · rw [hshift j hj, hleave]
  · obtain ⟨k, rfl⟩ : ∃ k', k = before.length + k' := ⟨k - before.length, by omega⟩
    rw [hshift k (by omega)] at he
    exact hdeeper k e (by omega) (by omega) he

/-- A visit that begins at an event ends at no event but one: the later end would be between two
events, and not deeper. -/
lemma end_unique (h : g.Paired text made es i j) (h' : g.Paired text made es i k) : j = k := by
  obtain ⟨hij, -, depth, x, position, stop, -, -, henter, hleave, hdeeper⟩ := h
  obtain ⟨hik, -, depth', x', position', stop', -, -, henter', hleave', hdeeper'⟩ := h'
  obtain ⟨rfl, rfl, rfl⟩ : depth = depth' ∧ x = x' ∧ position = position' := by
    simpa [henter'] using henter.symm
  rcases Nat.lt_trichotomy j k with hlt | heq | hlt
  · exact absurd (hdeeper' j _ hij hlt hleave) (Nat.lt_irrefl depth)
  · exact heq
  · exact absurd (hdeeper k _ hik hlt hleave') (Nat.lt_irrefl depth)

/-- A visit that ends at an event begins at no event but one. -/
lemma start_unique (h : g.Paired text made es i k) (h' : g.Paired text made es j k) : i = j := by
  obtain ⟨hik, -, depth, x, position, stop, -, -, henter, hleave, hdeeper⟩ := h
  obtain ⟨hjk, -, depth', x', position', stop', -, -, henter', hleave', hdeeper'⟩ := h'
  obtain ⟨rfl, rfl, rfl, rfl⟩ : depth = depth' ∧ x = x' ∧ position = position' ∧ stop = stop' := by
    simpa [hleave'] using hleave.symm
  rcases Nat.lt_trichotomy i j with hlt | heq | hlt
  · exact absurd (hdeeper j _ hlt hjk henter') (Nat.lt_irrefl depth)
  · exact heq
  · exact absurd (hdeeper' i _ hlt hik henter) (Nat.lt_irrefl depth)

/-- No visit begins at an event at which another one ends. -/
lemma not_paired_of_paired (h : g.Paired text made es i j) : ¬ g.Paired text made es j k := by
  obtain ⟨-, -, depth, x, position, stop, -, -, -, hleave, -⟩ := h
  rintro ⟨-, -, depth', x', position', stop', -, -, henter, -, -⟩
  cases hleave.symm.trans henter

end Paired

/-- Among nested events, each one belongs to a visit that begins or ends there.

**Proof sketch.** By induction on the visits: the two events of the first one are a pair, as all
those between them are deeper; those inside it and behind it are paired among themselves. -/
theorem Nested.exists_paired {made : Application ν α → Prop} {depth : Nat} {es : List (Event ν)}
    (h : g.Nested text made depth es)
    (hclosed : ∀ visit inner, made visit → g.MakesAll text visit inner → made inner) :
    ∀ i < es.length, ∃ j, g.Paired text made es i j ∨ g.Paired text made es j i := by
  induction h with
  | nil => exact fun i hi => absurd hi (Nat.not_lt_zero i)
  | @visit made depth position visit x stop inside rest hmade hvisits hinside _ hin hout =>
    have houter : g.Paired text made
        (.enter depth x position :: inside ++ .leave depth x position stop :: rest) 0
        (inside.length + 1) := by
      refine ⟨Nat.succ_pos _, visit, depth, x, position, stop, hmade, hvisits, rfl, by simp,
        fun k e hk hlt he => ?_⟩
      obtain ⟨k, rfl⟩ : ∃ k', k = k' + 1 := ⟨k - 1, by omega⟩
      rw [List.cons_append, List.getElem?_cons_succ, List.getElem?_append_left (by omega)] at he
      exact hinside.le_depth e (List.mem_of_getElem? he)
    intro i hi
    have hlength : i < inside.length + rest.length + 2 := by simpa [Nat.add_assoc] using hi
    rcases Nat.lt_trichotomy i (inside.length + 1) with hlt | rfl | hlt
    · cases i with
      | zero => exact ⟨_, .inl houter⟩
      | succ i =>
        obtain ⟨j, hj⟩ := hin (fun _ _ => Relation.ReflTransGen.trans) i (by omega)
        have hmono :=
          fun inner (hinner : g.MakesAll text visit inner) => hclosed visit inner hmade hinner
        refine ⟨j + 1, hj.imp (fun h => ?_) (fun h => ?_)⟩
        all_goals simpa [Nat.add_comm] using
          (h.mono hmono).between [.enter depth x position] (.leave depth x position stop :: rest)
    · exact ⟨0, .inr houter⟩
    · obtain ⟨i, rfl⟩ : ∃ i', i = inside.length + 2 + i' := ⟨i - (inside.length + 2), by omega⟩
      obtain ⟨j, hj⟩ := hout hclosed i (by omega)
      refine ⟨inside.length + 2 + j, hj.imp (fun h => ?_) (fun h => ?_)⟩
      all_goals
        have hshifted :=
          h.between (.enter depth x position :: inside ++ [.leave depth x position stop]) []
        simp only [List.append_nil, List.append_assoc, List.cons_append, List.nil_append,
          List.length_cons, List.length_append, List.length_nil, Nat.zero_add] at hshifted
        exact hshifted

/-- Each of the nested events is paired with exactly one other. -/
lemma Nested.existsUnique_paired {made : Application ν α → Prop} {depth : Nat} {es : List (Event ν)}
    (h : g.Nested text made depth es)
    (hclosed : ∀ visit inner, made visit → g.MakesAll text visit inner → made inner) {i : Nat}
    (hi : i < es.length) : ∃! j, g.Paired text made es i j ∨ g.Paired text made es j i := by
  obtain ⟨j, hj⟩ := h.exists_paired hclosed i hi
  refine ⟨j, hj, fun k hk => ?_⟩
  rcases hj, hk with ⟨hj | hj, hk | hk⟩
  · exact hk.end_unique hj
  · exact absurd hj hk.not_paired_of_paired
  · exact absurd hk hj.not_paired_of_paired
  · exact hk.start_unique hj

/-! ## What applications add to a trace -/

/-- An event is recorded in front of the others, if there is a trace. -/
lemma trace_record (run : Run ν α) (event : Event ν) :
    (run.record event).trace = run.trace.map (event :: ·) := by
  unfold Run.record
  cases h : run.trace <;> simp [h]

/-- A report is not traced. -/
lemma trace_fail (run : Run ν α) (position : Nat) (description : String) :
    (run.fail position description).trace = run.trace := by
  unfold Run.fail
  split <;> rfl

/-- The end of a named rule adds one event. -/
lemma trace_settleOutcome {key : Memo.Key ν} {outcome : Outcome α (Match α)} {stop : Option Nat}
    (h : outcome.told? = some stop) (run : Run ν α) :
    (g.settleOutcome key outcome run).trace =
      run.trace.map (.leave run.depth key.name key.position stop :: ·) := by
  cases outcome <;> cases h <;> simp only [settleOutcome, settle, Run.remember, trace_record]
  · rfl
  · cases (g.define key.name).errorName with
    | none => rfl
    | some description => rw [trace_fail, (Run.Heard.fail run key.position description).depth]; rfl

namespace Emits

variable {made others : Application ν α → Prop} {run between after : Run ν α}

/-- Where nothing is done, nothing is added to the trace. -/
lemma refl (run : Run ν α) : g.Emits text made run run :=
  ⟨rfl, [], by cases run.trace <;> rfl, .nil⟩

/-- What does not touch the trace and the depth adds nothing. -/
lemma of_eq (htrace : after.trace = run.trace) (hdepth : after.depth = run.depth) :
    g.Emits text made run after :=
  ⟨hdepth, [], by rw [htrace]; cases run.trace <;> rfl, .nil⟩

/-- What is added in two steps is added in one. -/
lemma trans (h : g.Emits text made run between) (h' : g.Emits text made between after) :
    g.Emits text made run after := by
  obtain ⟨hdepth, es, htrace, hnested⟩ := h
  obtain ⟨hdepth', more, htrace', hnested'⟩ := h'
  refine ⟨hdepth'.trans hdepth, es ++ more, ?_, hnested.append (hdepth ▸ hnested')⟩
  rw [htrace', htrace]
  cases run.trace <;> simp

/-- What some applications add is added by more of them. -/
lemma mono (h : g.Emits text made run after) (hmade : ∀ visit, made visit → others visit) :
    g.Emits text others run after := by
  obtain ⟨hdepth, es, htrace, hnested⟩ := h
  exact ⟨hdepth, es, htrace, hnested.mono hmade⟩

/-- Failures that are kept quiet meanwhile are none of the trace's business. -/
lemma hushed {amount : Int} (h : g.Emits text made (run.hush amount) after) (back : Int) :
    g.Emits text made run (after.hush back) := h

/-- A rule that passes or misses something adds nothing. -/
lemma passOrMiss {test : Bool} {position stop : Nat} {scope : Scope} {description : String}
    {outcome : Outcome α (Match α)}
    (h : Grammar.passOrMiss test position stop scope description run = (outcome, after)) :
    g.Emits text made run after := by
  cases test <;> cases h
  · exact of_eq (trace_fail run position description)
      (Run.Heard.fail run position description).depth
  · exact .refl run

/-- What is done with a result afterwards adds nothing, if it leaves the state alone. -/
lemma of_andThen {β γ : Type} {answer : Answer ν α β} {next : β → Run ν α → Answer ν α γ}
    {outcome : Outcome α γ} (h : answer.andThen next = (outcome, after))
    (hnext : ∀ result run, (next result run).2 = run) (hends : outcome.isStopped = false)
    (hemits : answer.1.isStopped = false → g.Emits text made run answer.2) :
    g.Emits text made run after := by
  obtain ⟨result | _ | cause, between⟩ := answer
  · have hafter : after = between := by
      rw [← hnext result between]
      exact (congrArg Prod.snd h).symm
    rw [hafter]
    exact hemits rfl
  · cases h
    exact hemits rfl
  · cases h
    cases hends

end Emits

/-- If the application comes to an end, what it adds to the trace is nested. -/
def Traced (g : Grammar ν α) (text : Text) (a : Application ν α) : Prop :=
  ∀ outcome after, a.answer g text = (outcome, after) → outcome.isStopped = false →
    g.Emits text (g.MakesAll text a) a.run after

/-- The application is one of the given ones, or is made inside one of them. -/
def Within (g : Grammar ν α) (text : Text) (applied : Application ν α → Prop)
    (visit : Application ν α) :
    Prop :=
  ∃ inner, applied inner ∧ g.MakesAll text inner visit

/-- What is made inside of some applications is made inside of more of them. -/
lemma Within.mono {applied others : Application ν α → Prop} {visit : Application ν α}
    (h : g.Within text applied visit) (hothers : ∀ inner, applied inner → others inner) :
    g.Within text others visit := by
  obtain ⟨inner, hinner, hvisit⟩ := h
  exact ⟨inner, hothers inner hinner, hvisit⟩

/-- What is made inside applications that another one makes is made inside that. -/
lemma Within.makesAll {applied : Application ν α → Prop} {a visit : Application ν α}
    (h : g.Within text applied visit) (hmakes : ∀ inner, applied inner → g.Makes text a inner) :
    g.MakesAll text a visit := by
  obtain ⟨inner, hinner, hvisit⟩ := h
  exact .head (hmakes inner hinner) hvisit

section Steps

variable {limit : Nat}
    (ih : ∀ rule position scope run, g.Traced text ⟨limit, rule, position, scope, run⟩)

include ih

/-- Parts of a sequence add nested events, whether all of them match or not. -/
lemma emits_applyParts :
    ∀ (rules : List (Rule ν α)) (position : Nat) (scope : Scope) (run : Run ν α)
    (outcome : Outcome α (Row α)) (after : Run ν α),
    (g.apply text limit).applyParts rules position scope run = (outcome, after) →
    outcome.isStopped = false →
    g.Emits text (g.Within text (g.MakesPart text limit rules position scope run)) run after
  | [], _, _, run, _, _, h, _ => by cases h; exact .refl run
  | rule :: rules, position, scope, run, outcome, after, h, hends => by
    rw [Matcher.applyParts] at h
    have hfirst := ih rule position scope run
    rcases happly : g.apply text limit rule position scope run with ⟨first | _ | cause, between⟩ <;>
      rw [happly] at h <;> simp only [Answer.andThen] at h
    · have hemits := (hfirst _ _ happly rfl).mono fun visit hvisit =>
        show g.Within text (g.MakesPart text limit (rule :: rules) position scope run) visit from
          ⟨_, .first, hvisit⟩
      refine hemits.trans ?_
      have hbehind : ∀ visit,
          g.Within text (g.MakesPart text limit rules first.stop first.scope between) visit →
          g.Within text (g.MakesPart text limit (rule :: rules) position scope run) visit :=
        fun visit hvisit => hvisit.mono fun inner hinner => .behind happly hinner
      have hrest := emits_applyParts rules first.stop first.scope between
      exact .of_andThen h (fun _ _ => rfl) hends fun hparts => (hrest _ _ rfl hparts).mono hbehind
    · cases h
      exact (hfirst _ _ happly rfl).mono fun visit hvisit => ⟨_, .first, hvisit⟩
    · cases h
      cases hends

/-- Alternatives add nested events, those that do not match too. -/
lemma emits_applyChoice :
    ∀ (rules : List (Rule ν α)) (position : Nat) (scope : Scope) (run : Run ν α)
    (outcome : Outcome α (Match α)) (after : Run ν α),
    (g.apply text limit).applyChoice rules position scope run = (outcome, after) →
    outcome.isStopped = false →
    g.Emits text (g.Within text (g.MakesAlternative text limit rules position scope run)) run after
  | [], _, _, run, _, _, h, _ => by cases h; exact .refl run
  | rule :: rules, position, scope, run, outcome, after, h, hends => by
    rw [Matcher.applyChoice] at h
    have hfirst := ih rule position scope run
    rcases happly : g.apply text limit rule position scope run with ⟨first | _ | cause, between⟩ <;>
      rw [happly] at h <;> simp only at h
    · cases h
      exact (hfirst _ _ happly rfl).mono fun visit hvisit => ⟨_, .first, hvisit⟩
    · have hemits := (hfirst _ _ happly rfl).mono fun visit hvisit =>
        show g.Within text (g.MakesAlternative text limit (rule :: rules) position scope run)
            visit from
          ⟨_, .first, hvisit⟩
      refine hemits.trans
        ((emits_applyChoice rules position scope between outcome after h hends).mono ?_)
      exact fun visit hvisit => hvisit.mono fun inner hinner => .behind happly hinner
    · cases h
      cases hends

/-- Trips of a repetition add nested events, and so does the attempt at one more. -/
lemma emits_applyTrips (rule : Rule ν α) (least : Int) (most : Option Int) :
    ∀ (budget : Nat) (count : Int) (position : Nat) (scope : Scope) (run : Run ν α)
      (outcome : Outcome α (Trips α)) (after : Run ν α),
      (g.apply text limit).applyTrips rule least most budget count position scope run =
      (outcome, after) →
      outcome.isStopped = false →
      g.Emits text
        (g.Within text (g.MakesTrip text limit rule most budget count position scope run)) run after
  | 0, _, _, _, run, _, _, h, _ => by cases h; exact .refl run
  | budget + 1, count, position, scope, run, outcome, after, h, hends => by
    rw [Matcher.applyTrips] at h
    split at h
    · cases h
      exact .refl run
    · rename_i hclosed
      have hopen : (most.any fun most => decide (most ≤ count)) = false :=
        Bool.eq_false_iff.2 hclosed
      have hfirst := ih rule position scope run
      rcases happly : g.apply text limit rule position scope run with
          ⟨first | _ | cause, between⟩ <;>
        rw [happly] at h <;> simp only at h
      · have hemits := (hfirst _ _ happly rfl).mono fun visit hvisit =>
          show g.Within text
              (g.MakesTrip text limit rule most (budget + 1) count position scope run) visit from
            ⟨_, .first hopen, hvisit⟩
        split at h
        · cases h
          exact hemits
        · rename_i hstop
          refine hemits.trans ?_
          have hbehind : ∀ visit,
              g.Within text
                (g.MakesTrip text limit rule most budget (count + 1) first.stop first.scope between)
                visit →
              g.Within text (g.MakesTrip text limit rule most (budget + 1) count position scope run)
                visit :=
            fun visit hvisit => hvisit.mono fun inner hinner => .behind hopen happly hstop hinner
          have hrest :=
            emits_applyTrips rule least most budget (count + 1) first.stop first.scope between
          exact .of_andThen h (fun _ _ => rfl) hends fun htrips =>
            (hrest _ _ rfl htrips).mono hbehind
      · cases h
        exact (hfirst _ _ happly rfl).mono fun visit hvisit => ⟨_, .first hopen, hvisit⟩
      · cases h
        cases hends

end Steps

/-- The body of a named rule is applied where the rule is entered; behind it the counters are
lowered again. -/
lemma applyBody_record {x : ν} {body : Rule ν α} (hbody : (g.define x).body = .ok body)
    (m : Matcher ν α) (position : Nat) (run : Run ν α) :
    g.applyBody m x position (run.record (.enter run.depth x position)) =
      let answer := m body position [] (g.entered x position run)
      (answer.1, { answer.2 with
        quiet := answer.2.quiet + -g.hushing x, depth := answer.2.depth - 1 }) := by
  rw [applyBody_eq]
  simp only [Action.within, bodyAction, hbody, entered]

/-- A visit adds an event where it begins and one where it ends, and in between what its body adds,
one step deeper; a remembered result adds nothing. -/
lemma traced_named {limit : Nat}
    (ih : ∀ rule position scope run, g.Traced text ⟨limit, rule, position, scope, run⟩)
    (x : ν) (position : Nat) (scope : Scope) (run : Run ν α) :
    g.Traced text ⟨limit + 2, .named x, position, scope, run⟩ := by
  intro outcome after h hends
  have hnamed : g.applyNamed (g.apply text limit) x position scope run = (outcome, after) := h
  cases hremembered : run.remembered? (run.key x position) with
  | some ending =>
    simp only [applyNamed, hremembered] at hnamed
    cases ending <;> cases hnamed <;> exact .refl run
  | none =>
    rw [g.applyNamed_of_forgotten _ x position scope hremembered] at hnamed
    cases hbody : (g.define x).body with
    | error mistake =>
      simp only [applyBody_eq, Action.within, bodyAction, hbody] at hnamed
      cases hnamed
      cases hends
    | ok body =>
      rw [applyBody_record hbody] at hnamed
      have hinside := ih body position [] (g.entered x position run)
      rcases happly : g.apply text limit body position [] (g.entered x position run) with
          ⟨result, inside⟩
      rw [happly] at hnamed
      cases hnamed
      obtain ⟨stop, hstop⟩ : ∃ stop, result.told? = some stop := by
        cases result <;> first | exact ⟨_, rfl⟩ | cases hends
      have hvisits :
          Application.Visits ⟨limit + 2, .named x, position, scope, run⟩ g text run.depth x position
          stop := by
        refine ⟨rfl, rfl, rfl, ?_⟩
        rw [h, ← hstop]
        cases result <;> rfl
      have hmakes : g.Makes text ⟨limit + 2, .named x, position, scope, run⟩
          ⟨limit, body, position, [], g.entered x position run⟩ := .body hremembered hbody
      obtain ⟨hdepth, es, htrace, hnested⟩ :=
        hinside result inside happly (by cases result <;> first | rfl | cases hstop)
      have hentered : (g.entered x position run).depth = run.depth + 1 := by
        simp only [entered, (Run.Heard.record run _).depth]
      simp only [hentered] at hdepth hnested
      refine ⟨?_, .enter run.depth x position :: es ++ [.leave run.depth x position stop], ?_, ?_⟩
      · rw [(g.heard_settleOutcome _ result _).depth]
        simp only [hdepth, Nat.add_sub_cancel]
      · rw [trace_settleOutcome hstop]
        simp only [htrace, hdepth, entered, trace_record, Option.map_map, Nat.add_sub_cancel,
          Run.key]
        congr 1
        funext events
        simp
      · exact .visit .refl hvisits (hnested.mono fun _ => .head hmakes) .nil

/-- What an application adds to the trace is nested, if it comes to an end, in whatever state it
starts.

**Proof sketch.** Induction on the limit. All forms of rules but the named ones add what the
applications add that they make, one behind the other. -/
theorem traced_apply : ∀ limit (rule : Rule ν α) (position : Nat) (scope : Scope) (run : Run ν α),
    g.Traced text ⟨limit, rule, position, scope, run⟩
  | 0, _, _, _, _ => by
    rintro outcome after ⟨⟩ ⟨⟩
  | limit + 1, rule, position, scope, run => by
    have ih := traced_apply limit
    intro outcome after h hends
    change g.apply text (limit + 1) rule position scope run = (outcome, after) at h
    -- What an inner application adds is added by the outer one.
    have hinner : ∀ {inside : Rule ν α} {within between : Run ν α} {result : Outcome α (Match α)},
        g.Makes text ⟨limit + 1, rule, position, scope, run⟩
          ⟨limit, inside, position, scope, within⟩ →
        g.apply text limit inside position scope within = (result, between) →
        result.isStopped = false →
        g.Emits text (g.MakesAll text ⟨limit + 1, rule, position, scope, run⟩) within between :=
      fun hmakes happly hresult => (ih _ _ _ _ _ _ happly hresult).mono fun _ => .head hmakes
    cases rule with
    | named x =>
      cases limit with
      | zero => cases h; cases hends
      | succ limit =>
        exact traced_named (traced_apply limit) x position scope run outcome after h hends
    | literal s =>
      rw [apply_literal_eq] at h
      exact .passOrMiss h
    | charSet set =>
      rw [apply_charSet_eq] at h
      exact .passOrMiss h
    | any =>
      rw [apply_any_eq] at h
      exact .passOrMiss h
    | lineStart =>
      rw [apply_lineStart_eq] at h
      cases h
      exact .refl run
    | backref name =>
      rw [apply_backref_eq] at h
      split at h
      · cases h
        cases hends
      · exact .passOrMiss h
    | sequence rules =>
      rw [apply_sequence] at h
      have hparts := emits_applyParts ih rules position scope run
      refine .of_andThen h (fun row between => ?_) hends fun hrow =>
        (hparts _ _ rfl hrow).mono fun visit hvisit => hvisit.makesAll fun _ => .part
      split <;> rfl
    | choice rules =>
      rw [apply_choice] at h
      exact (emits_applyChoice ih rules position scope run outcome after h hends).mono
        fun visit hvisit => hvisit.makesAll fun _ => .alternative
    | repetition rule least most =>
      rw [apply_repetition] at h
      have htrips :=
        emits_applyTrips ih rule least most (text.size - position + 1) 0 position scope run
      refine .of_andThen h (fun trips between => ?_) hends fun hrow =>
        (htrips _ _ rfl hrow).mono fun visit hvisit => hvisit.makesAll fun _ => .trip
      split
      · rfl
      · split <;> rfl
    | optional rule =>
      rw [apply_optional] at h
      rcases happly : g.apply text limit rule position scope run with
          ⟨first | _ | cause, between⟩ <;>
        rw [happly] at h <;> cases h
      · exact hinner .optional happly rfl
      · exact hinner .optional happly rfl
      · cases hends
    | lookahead negative rule =>
      rw [apply_lookahead] at h
      rcases happly : g.apply text limit rule position scope (run.hush 1) with
          ⟨first | _ | cause, between⟩ <;>
        rw [happly] at h <;> simp only at h
      · have hemits := hinner .lookahead happly rfl
        obtain rfl : between.hush (-1) = after := by cases negative <;> cases h <;> rfl
        exact hemits.hushed (-1)
      · have hemits := hinner .lookahead happly rfl
        obtain rfl : between.hush (-1) = after := by cases negative <;> cases h <;> rfl
        exact hemits.hushed (-1)
      · cases h
        cases hends
    | capture name rule =>
      rw [apply_capture] at h
      exact .of_andThen h (fun _ _ => rfl) hends fun hresult => hinner .capture rfl hresult
    | build builder rule =>
      rw [apply_build] at h
      refine .of_andThen h (fun result between => ?_) hends fun hresult => hinner .build rfl hresult
      split <;> rfl
    | bind name rule =>
      rw [apply_bind] at h
      exact .of_andThen h (fun _ _ => rfl) hends fun hresult => hinner .bind rfl hresult

/-- The trace is a properly nested record of the matching.

An application that comes to an end adds events to a trace, and their lines to the log, that are
nested: they are those of visits one behind the other, each of which is entered as deep as the
application starts, and left as deep, with the end that it had, a match up to a stop or none;
between the two are the events of visits made inside it, which are nested likewise and one step
deeper. So each event is paired with exactly one other, of the same rule, at the same position and
equally deep, and all those between the two are deeper. A line is indented by two spaces for each
step. Nothing is asked of the state in which the application starts, except that it has a trace. -/
theorem trace_nested (g : Grammar ν α) (text : Text) (a : Application ν α) {before : List (Event ν)}
    (htraced : a.run.trace = some before) (hends : (a.answer g text).1.isStopped = false) :
    ∃ es, (a.answer g text).2.trace = some (es.reverse ++ before) ∧
      (g.traceEntries (a.answer g text).2.events).map (·.message) =
        (g.traceEntries a.run.events).map (·.message) ++ es.map
        (Event.render fun x => (g.define x).name) ∧
      g.Nested text (g.MakesAll text a) a.run.depth es ∧
      ∀ i < es.length, ∃! j,
        g.Paired text (g.MakesAll text a) es i j ∨ g.Paired text (g.MakesAll text a) es j i := by
  have hemits : g.Traced text a := traced_apply a.limit a.rule a.position a.scope a.run
  obtain ⟨-, es, htrace, hnested⟩ := hemits _ _ rfl hends
  have hafter : (a.answer g text).2.trace = some (es.reverse ++ before) := by
    refine htrace.trans ?_
    rw [htraced, Option.map_some]
  refine ⟨es, hafter, ?_, hnested, fun i hi => ?_⟩
  · simp [Run.events, hafter, htraced, traceEntries]
  · exact hnested.existsUnique_paired (fun _ _ => Relation.ReflTransGen.trans) hi

end Grammar

namespace Program

/-- A digit, inside another phrase. The search for a second digit is recorded once: the result is
remembered. -/
theorem trace_nested_digits :
    ∃ es, ∃ a : Application Phrase Node, a.rule = .named .digits ∧ a.run.depth = 1 ∧
      grammar.Nested (.ofString "7") (grammar.MakesAll (.ofString "7") a) 1 es ∧
      es.map (Event.render fun x => (grammar.define x).name) =
        ["  digits @ 0", "    digit @ 0", "    digit @ 0 -> 1", "    digit @ 1",
          "    digit @ 1 fail", "  digits @ 0 -> 1"] := by
  obtain ⟨es, -, hlines, hnested, -⟩ := grammar.trace_nested (.ofString "7")
    ⟨20, .named .digits, 0, [], { (Run.fresh true true : Run Phrase Node) with depth := 1 }⟩
    rfl (by decide +kernel)
  refine ⟨es, _, rfl, rfl, hnested, hlines.symm.trans ?_⟩
  decide +kernel

end Program

end Packrat
