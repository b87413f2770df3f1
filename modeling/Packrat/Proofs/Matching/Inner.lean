import Mathlib.Logic.Relation
import Packrat.Proofs.Matching.Unwinding
set_option autoImplicit false
set_option relaxedAutoImplicit false

/-!
# Applications inside applications

An application makes others: a sequence applies its parts, a named rule its body unless its result
is remembered, and so on, each in the state that the ones before have left. What holds of all of
them is proved along this relation, and so is what holds of every state that a run goes through,
also of those in the middle of an application.

## Main definitions

* `Packrat.Application` — a rule that is applied at a position, in a state.
* `Packrat.Grammar.Makes` — the applications that an application makes directly.
* `Packrat.Grammar.MakesAll` — the application itself and all that are made inside it.
* `Packrat.Grammar.Later` — a state to which applications lead from another one.

## Main results

* `Packrat.Grammar.Makes.keeps` — what applications keep holds where an inner application starts.
* `Packrat.Grammar.Later.keeps` — what applications keep holds in every later state.
* `Packrat.Grammar.Later.since` — nothing that a state knows is lost later on.
-/

namespace Packrat

variable {ν α : Type} [DecidableEq ν]

/-- A rule that is applied at a position, with a scope and in a state, under a limit. -/
structure Application (ν α : Type) [DecidableEq ν] where
  limit : Nat
  rule : Rule ν α
  position : Nat
  scope : Scope
  run : Run ν α

/-- The answer of an application. -/
def Application.answer (a : Application ν α) (g : Grammar ν α) (text : Text) :
    Answer ν α (Match α) :=
  g.apply text a.limit a.rule a.position a.scope a.run

namespace Grammar

variable (g : Grammar ν α) (text : Text)

section Steps

variable (limit : Nat)

/-- A part of a sequence is applied once all parts in front of it have matched, where the last of
them ended. -/
inductive MakesPart :
    List (Rule ν α) → Nat → Scope → Run ν α → Application ν α → Prop
  | first {rule : Rule ν α} {rules : List (Rule ν α)} {position : Nat} {scope : Scope}
      {run : Run ν α} :
      MakesPart (rule :: rules) position scope run ⟨limit, rule, position, scope, run⟩
  | behind {rule : Rule ν α} {rules : List (Rule ν α)} {position : Nat} {scope : Scope}
      {run after : Run ν α} {first : Match α} {inner : Application ν α}
      (h : g.apply text limit rule position scope run = (.matched first, after))
      (hinner : MakesPart rules first.stop first.scope after inner) :
      MakesPart (rule :: rules) position scope run inner

/-- An alternative is applied once none of those in front of it has matched. -/
inductive MakesAlternative :
    List (Rule ν α) → Nat → Scope → Run ν α → Application ν α → Prop
  | first {rule : Rule ν α} {rules : List (Rule ν α)} {position : Nat} {scope : Scope}
      {run : Run ν α} :
      MakesAlternative (rule :: rules) position scope run ⟨limit, rule, position, scope, run⟩
  | behind {rule : Rule ν α} {rules : List (Rule ν α)} {position : Nat} {scope : Scope}
      {run after : Run ν α} {inner : Application ν α}
      (h : g.apply text limit rule position scope run = (.unmatched, after))
      (hinner : MakesAlternative rules position scope after inner) :
      MakesAlternative (rule :: rules) position scope run inner

/-- A repetition applies its rule as long as it may, and once more behind each trip that took
something. -/
inductive MakesTrip (rule : Rule ν α) (most : Option Int) :
    Nat → Int → Nat → Scope → Run ν α → Application ν α → Prop
  | first {budget : Nat} {count : Int} {position : Nat} {scope : Scope} {run : Run ν α}
      (hopen : (most.any fun most => decide (most ≤ count)) = false) :
      MakesTrip rule most (budget + 1) count position scope run
        ⟨limit, rule, position, scope, run⟩
  | behind {budget : Nat} {count : Int} {position : Nat} {scope : Scope} {run after : Run ν α}
      {first : Match α} {inner : Application ν α}
      (hopen : (most.any fun most => decide (most ≤ count)) = false)
      (h : g.apply text limit rule position scope run = (.matched first, after))
      (hstop : first.stop ≠ position)
      (hinner : MakesTrip rule most budget (count + 1) first.stop first.scope after inner) :
      MakesTrip rule most (budget + 1) count position scope run inner

end Steps

/-- The state in which the body of a named rule is applied. -/
def entered (x : ν) (position : Nat) (run : Run ν α) : Run ν α :=
  let run := run.record (.enter run.depth x position)
  { run with quiet := run.quiet + g.hushing x, depth := run.depth + 1 }

/-- The applications that an application makes directly. A named rule makes one only if its result
is not remembered. -/
inductive Makes : Application ν α → Application ν α → Prop
  | part {limit : Nat} {rules : List (Rule ν α)} {position : Nat} {scope : Scope} {run : Run ν α}
      {inner : Application ν α} (h : g.MakesPart text limit rules position scope run inner) :
      Makes ⟨limit + 1, .sequence rules, position, scope, run⟩ inner
  | alternative {limit : Nat} {rules : List (Rule ν α)} {position : Nat} {scope : Scope}
      {run : Run ν α} {inner : Application ν α}
      (h : g.MakesAlternative text limit rules position scope run inner) :
      Makes ⟨limit + 1, .choice rules, position, scope, run⟩ inner
  | trip {limit : Nat} {rule : Rule ν α} {least : Int} {most : Option Int} {position : Nat}
      {scope : Scope} {run : Run ν α} {inner : Application ν α}
      (h : g.MakesTrip text limit rule most (text.size - position + 1) 0 position scope run inner) :
      Makes ⟨limit + 1, .repetition rule least most, position, scope, run⟩ inner
  | optional {limit : Nat} {rule : Rule ν α} {position : Nat} {scope : Scope} {run : Run ν α} :
      Makes ⟨limit + 1, .optional rule, position, scope, run⟩ ⟨limit, rule, position, scope, run⟩
  | lookahead {limit : Nat} {negative : Bool} {rule : Rule ν α} {position : Nat} {scope : Scope}
      {run : Run ν α} :
      Makes ⟨limit + 1, .lookahead negative rule, position, scope, run⟩
        ⟨limit, rule, position, scope, run.hush 1⟩
  | capture {limit : Nat} {name : String} {rule : Rule ν α} {position : Nat} {scope : Scope}
      {run : Run ν α} :
      Makes ⟨limit + 1, .capture name rule, position, scope, run⟩
        ⟨limit, rule, position, scope, run⟩
  | build {limit : Nat} {builder : Builder α} {rule : Rule ν α} {position : Nat} {scope : Scope}
      {run : Run ν α} :
      Makes ⟨limit + 1, .build builder rule, position, scope, run⟩
        ⟨limit, rule, position, scope, run⟩
  | bind {limit : Nat} {name : String} {rule : Rule ν α} {position : Nat} {scope : Scope}
      {run : Run ν α} :
      Makes ⟨limit + 1, .bind name rule, position, scope, run⟩ ⟨limit, rule, position, scope, run⟩
  | body {limit : Nat} {x : ν} {body : Rule ν α} {position : Nat} {scope : Scope} {run : Run ν α}
      (hforgotten : run.remembered? (run.key x position) = none)
      (hbody : (g.define x).body = .ok body) :
      Makes ⟨limit + 2, .named x, position, scope, run⟩
        ⟨limit, body, position, [], g.entered x position run⟩

/-- The application itself, those it makes, those that these make, and so on. -/
abbrev MakesAll : Application ν α → Application ν α → Prop := Relation.ReflTransGen (g.Makes text)

/-- From one state to another by one application: to where an inner application starts, or to its
end. -/
inductive Passes : Run ν α → Run ν α → Prop
  | inward {a inner : Application ν α} (h : g.Makes text a inner) : Passes a.run inner.run
  | past (a : Application ν α) : Passes a.run (a.answer g text).2

/-- Applications lead from the first state to the second one, at the end of an application or in the
middle of one. -/
abbrev Later : Run ν α → Run ν α → Prop := Relation.ReflTransGen (g.Passes text)

variable {g text}

/-! ## What holds of all applications -/

section Keeping

variable {At : Nat → Prop} {I : Run ν α → Prop}
  (happly : ∀ a : Application ν α, At a.position → I a.run →
    I (a.answer g text).2 ∧ ∀ result, (a.answer g text).1 = .matched result → At result.stop)

include happly

/-- What holds of a row holds of each application that it makes. -/
lemma MakesPart.keeps {limit : Nat} {rules : List (Rule ν α)} {position : Nat} {scope : Scope}
    {run : Run ν α} {inner : Application ν α}
    (h : g.MakesPart text limit rules position scope run inner) (hat : At position) (hi : I run) :
    At inner.position ∧ I inner.run := by
  induction h with
  | first => exact ⟨hat, hi⟩
  | @behind rule rules position scope run after first inner hrule _ ih =>
    obtain ⟨hafter, hstop⟩ := happly ⟨limit, rule, position, scope, run⟩ hat hi
    simp only [Application.answer, hrule] at hafter hstop
    exact ih (hstop first rfl) hafter

/-- What holds of a choice holds of each application that it makes. -/
lemma MakesAlternative.keeps {limit : Nat} {rules : List (Rule ν α)} {position : Nat}
    {scope : Scope} {run : Run ν α} {inner : Application ν α}
    (h : g.MakesAlternative text limit rules position scope run inner) (hat : At position)
    (hi : I run) : At inner.position ∧ I inner.run := by
  induction h with
  | first => exact ⟨hat, hi⟩
  | @behind rule rules position scope run after inner hrule _ ih =>
    have hafter := (happly ⟨limit, rule, position, scope, run⟩ hat hi).1
    simp only [Application.answer, hrule] at hafter
    exact ih hat hafter

/-- What holds of the trips of a repetition holds of each application that they make. -/
lemma MakesTrip.keeps {limit : Nat} {rule : Rule ν α} {most : Option Int} {budget : Nat}
    {count : Int} {position : Nat} {scope : Scope} {run : Run ν α} {inner : Application ν α}
    (h : g.MakesTrip text limit rule most budget count position scope run inner)
    (hat : At position) (hi : I run) : At inner.position ∧ I inner.run := by
  induction h with
  | first => exact ⟨hat, hi⟩
  | @behind budget count position scope run after first inner _ hrule _ _ ih =>
    obtain ⟨hafter, hstop⟩ := happly ⟨limit, rule, position, scope, run⟩ hat hi
    simp only [Application.answer, hrule] at hafter hstop
    exact ih (hstop first rfl) hafter

/-- Where an inner application starts, the same holds as where the outer one does, if applications
keep it, and if it does not depend on the counters and the trace.

**Proof sketch.** One case for each form of rule. The applications that lie in front of the inner
one keep what holds. -/
theorem Makes.keeps
    (hinside : ∀ (run : Run ν α) (amount : Int) (deeper : Nat), 0 ≤ amount → I run →
      I { run with quiet := run.quiet + amount, depth := run.depth + deeper })
    (hrecord : ∀ (run : Run ν α) (event : Event ν), I run → I (run.record event))
    {a inner : Application ν α} (h : g.Makes text a inner) (hat : At a.position) (hi : I a.run) :
    At inner.position ∧ I inner.run := by
  cases h with
  | part h => exact h.keeps happly hat hi
  | alternative h => exact h.keeps happly hat hi
  | trip h => exact h.keeps happly hat hi
  | optional | capture | build | bind => exact ⟨hat, hi⟩
  | lookahead => exact ⟨hat, hinside _ 1 0 (by decide) hi⟩
  | body => exact ⟨hat, hinside _ _ 1 (g.hushing_nonneg _) (hrecord _ _ hi)⟩

/-- What holds where an application starts holds where any application inside it does. -/
theorem MakesAll.keeps
    (hinside : ∀ (run : Run ν α) (amount : Int) (deeper : Nat), 0 ≤ amount → I run →
      I { run with quiet := run.quiet + amount, depth := run.depth + deeper })
    (hrecord : ∀ (run : Run ν α) (event : Event ν), I run → I (run.record event))
    {a inner : Application ν α} (h : g.MakesAll text a inner) (hat : At a.position) (hi : I a.run) :
    At inner.position ∧ I inner.run := by
  induction h with
  | refl => exact ⟨hat, hi⟩
  | tail _ hmakes ih => exact hmakes.keeps happly hinside hrecord ih.1 ih.2

end Keeping

/-! ## What holds in all later states -/

/-- What applications keep, whatever the counters and the trace are, holds in every later state. -/
theorem Later.keeps {I : Run ν α → Prop}
    (happly : ∀ a : Application ν α, I a.run → I (a.answer g text).2)
    (hinside : ∀ (run : Run ν α) (amount : Int) (deeper : Nat), 0 ≤ amount → I run →
      I { run with quiet := run.quiet + amount, depth := run.depth + deeper })
    (hrecord : ∀ (run : Run ν α) (event : Event ν), I run → I (run.record event))
    {run later : Run ν α} (h : g.Later text run later) (hi : I run) : I later := by
  induction h with
  | refl => exact hi
  | tail _ hpass ih =>
    cases hpass with
    | inward hmakes =>
      have hanywhere : ∀ a : Application ν α, True → I a.run → I (a.answer g text).2 ∧
          ∀ result, (a.answer g text).1 = .matched result → True :=
        fun a _ hi => ⟨happly a hi, fun _ _ => trivial⟩
      exact (@Makes.keeps _ _ _ g text (fun _ => True) I hanywhere hinside hrecord _ _ hmakes
        trivial ih).2
    | past a => exact happly a ih

/-- What a state knows is known in every later one. -/
theorem Later.since {run later : Run ν α} (h : g.Later text run later) : run.Since later := by
  refine Later.keeps (I := run.Since) (fun a hi => ?_) (fun _ _ _ _ hi => ?_)
    (fun between event hi => ?_) h (.refl run)
  · exact hi.trans (g.unwinds_applyBy text.reading a.limit a.rule a.position a.scope a.run).toSince
  · exact ⟨hi.frontier, hi.memoizes, hi.remembered⟩
  · exact hi.trans ((Run.Heard.record between event).since (memo_record between event))

end Grammar

end Packrat
