import Packrat.Program.Grammar
import Packrat.Proofs.Matching.Once
import Packrat.Proofs.Parsing.Scopes
set_option autoImplicit false
set_option relaxedAutoImplicit false

/-!
# Where bindings go

A match leaves the scope that it was given, with bindings of its own on top. They come from the
rules inside it that bind their text and that belong to the match: not from a lookahead or a named
rule, and not from what was tried and did not match.

## Main definitions

* `Packrat.Rule.isSealed` — whether a rule keeps to itself what is bound inside it.
* `Packrat.Grammar.Binds` — what is bound by the rules that belong to an application.
* `Packrat.Grammar.Adds` — a scope behind some applications.

## Main results

* `Packrat.Grammar.layers_apply` — the bindings of a match are those of the rules that belong to it.
* `Packrat.Grammar.bindings_stay` — bindings stay where they belong.
-/

namespace Packrat

variable {ν α : Type} [DecidableEq ν]

/-- The rule keeps to itself what is bound inside it. -/
def Rule.isSealed : Rule ν α → Bool
  | .named _ | .lookahead _ _ => true
  | _ => false

/-- The application is a match. -/
def Application.Matches (a : Application ν α) (g : Grammar ν α) (text : Text) : Prop :=
  ∃ result, (a.answer g text).1 = .matched result

namespace Grammar

variable (g : Grammar ν α) (text : Text)

/-- A text is bound to a name by an application: by its own rule, if that binds its text, or by an
application that it makes and that matches, if its rule is not one that keeps bindings to itself. -/
inductive Binds : Application ν α → String × String → Prop
  | here {a : Application ν α} {name : String} {rule : Rule ν α} {result : Match α}
      (hrule : a.rule = .bind name rule) (h : (a.answer g text).1 = .matched result) :
      Binds a (name, text.slice a.position result.stop)
  | inside {a inner : Application ν α} {binding : String × String} (hopen : a.rule.isSealed = false)
      (hmakes : g.Makes text a inner) (hmatches : inner.Matches g text) (h : Binds inner binding) :
      Binds a binding

/-- The second scope is the first one with those bindings on top that the given applications add by
their matches. -/
def Adds (applied : Application ν α → Prop) (scope scope' : Scope) : Prop :=
  ∃ new, scope' = new ++ scope ∧ ∀ binding, binding ∈ new ↔
    ∃ inner, applied inner ∧ inner.Matches g text ∧ g.Binds text inner binding

variable {g text}

/-! ## Scopes behind applications -/

namespace Adds

variable {applied others : Application ν α → Prop} {scope between behind : Scope}
    {a : Application ν α}

/-- Nothing is added where nothing matches. -/
lemma refl (h : ∀ inner, applied inner → ¬ inner.Matches g text) (scope : Scope) :
    g.Adds text applied scope scope :=
  ⟨[], rfl, fun _ => iff_of_false List.not_mem_nil fun ⟨inner, happlied, hmatches, _⟩ =>
    h inner happlied hmatches⟩

/-- An application that does not match adds nothing. -/
lemma of_unmatched {limit position : Nat} {rule : Rule ν α} {start : Scope} {run after : Run ν α}
    (h : g.apply text limit rule position start run = (.unmatched, after)) (scope : Scope) :
    g.Adds text (· = ⟨limit, rule, position, start, run⟩) scope scope := by
  refine refl ?_ scope
  rintro _ rfl ⟨result, hresult⟩
  cases (congrArg Prod.fst h).symm.trans hresult

/-- Applications one behind the other add their bindings one on top of the other. -/
lemma trans (h : g.Adds text applied scope between) (h' : g.Adds text others between behind) :
    g.Adds text (fun inner => applied inner ∨ others inner) scope behind := by
  obtain ⟨new, rfl, hnew⟩ := h
  obtain ⟨more, rfl, hmore⟩ := h'
  refine ⟨more ++ new, (List.append_assoc _ _ _).symm, fun binding => ?_⟩
  rw [List.mem_append, hnew, hmore, or_comm]
  simp only [or_and_right, exists_or]

/-- What is added by some applications is added by the same ones, however they are told. -/
lemma congr (h : g.Adds text applied scope behind) (hiff : ∀ inner, others inner ↔ applied inner) :
    g.Adds text others scope behind := by
  obtain rfl : others = applied := funext fun inner => propext (hiff inner)
  exact h

end Adds

/-! ## What is made one behind the other -/

section Making

variable {limit : Nat} {rule : Rule ν α} {rules : List (Rule ν α)} {most : Option Int}
    {budget : Nat}
  {count : Int} {position : Nat} {scope : Scope} {run after : Run ν α} {first : Match α}
  {inner : Application ν α}

/-- Behind a part that matches, the others are applied where it ends. -/
lemma makesPart_cons_iff
    (h : g.apply text limit rule position scope run = (.matched first, after)) :
    g.MakesPart text limit (rule :: rules) position scope run inner ↔
      inner = ⟨limit, rule, position, scope, run⟩ ∨
        g.MakesPart text limit rules first.stop first.scope after inner := by
  constructor
  · intro hmakes
    cases hmakes with
    | first => exact .inl rfl
    | behind hrule hinner =>
      cases h.symm.trans hrule
      exact .inr hinner
  · rintro (rfl | hinner)
    · exact .first
    · exact .behind h hinner

/-- Behind an alternative that matches, no other one is applied. -/
lemma makesAlternative_cons_iff_of_matched
    (h : g.apply text limit rule position scope run = (.matched first, after)) :
    g.MakesAlternative text limit (rule :: rules) position scope run inner ↔
      inner = ⟨limit, rule, position, scope, run⟩ := by
  constructor
  · intro hmakes
    cases hmakes with
    | first => rfl
    | behind hrule _ => cases h.symm.trans hrule
  · rintro rfl
    exact .first

/-- Behind an alternative that does not match, the others are applied where it was. -/
lemma makesAlternative_cons_iff_of_unmatched
    (h : g.apply text limit rule position scope run = (.unmatched, after)) :
    g.MakesAlternative text limit (rule :: rules) position scope run inner ↔
      inner = ⟨limit, rule, position, scope, run⟩ ∨
        g.MakesAlternative text limit rules position scope after inner := by
  constructor
  · intro hmakes
    cases hmakes with
    | first => exact .inl rfl
    | behind hrule hinner =>
      cases h.symm.trans hrule
      exact .inr hinner
  · rintro (rfl | hinner)
    · exact .first
    · exact .behind h hinner

variable (hopen : (most.any fun most => decide (most ≤ count)) = false)
include hopen

/-- Behind a trip that does not match or takes nothing, no other one is made. -/
lemma makesTrip_succ_iff_of_last
    (h : ∀ first after, g.apply text limit rule position scope run = (.matched first, after) →
      first.stop = position) :
    g.MakesTrip text limit rule most (budget + 1) count position scope run inner ↔
      inner = ⟨limit, rule, position, scope, run⟩ := by
  constructor
  · intro hmakes
    cases hmakes with
    | first => rfl
    | behind _ hrule hmoved _ => exact absurd (h _ _ hrule) hmoved
  · rintro rfl
    exact .first hopen

/-- Behind a trip that takes something, the others are made where it ends. -/
lemma makesTrip_succ_iff_of_matched
    (h : g.apply text limit rule position scope run = (.matched first, after))
    (hmoved : first.stop ≠ position) :
    g.MakesTrip text limit rule most (budget + 1) count position scope run inner ↔
      inner = ⟨limit, rule, position, scope, run⟩ ∨
        g.MakesTrip text limit rule most budget (count + 1) first.stop first.scope after inner := by
  constructor
  · intro hmakes
    cases hmakes with
    | first => exact .inl rfl
    | behind _ hrule _ hinner =>
      cases h.symm.trans hrule
      exact .inr hinner
  · rintro (rfl | hinner)
    · exact .first hopen
    · exact .behind hopen h hmoved hinner

end Making

/-! ## Rows, choices and repetitions -/

variable (g text) in
/-- Under the given limit, a match adds what is bound by the rules that belong to it. -/
def Layers (limit : Nat) : Prop :=
  ∀ ⦃rule position scope run result after⦄,
    g.apply text limit rule position scope run = (.matched result, after) →
    g.Adds text (· = ⟨limit, rule, position, scope, run⟩) scope result.scope

section Steps

variable {limit : Nat} (h : g.Layers text limit)
include h

/-- A row of rules adds what its parts add, one behind the other. -/
lemma Layers.applyParts :
    ∀ {rules : List (Rule ν α)} {position : Nat} {scope : Scope} {run after : Run ν α}
      {row : Row α},
      (g.apply text limit).applyParts rules position scope run = (.matched row, after) →
      g.Adds text (g.MakesPart text limit rules position scope run) scope row.scope
  | [], _, scope, _, _, _, hrow => by
    cases hrow
    exact .refl (by rintro _ ⟨⟩) scope
  | rule :: rules, position, scope, run, _, _, hrow => by
    rw [Matcher.applyParts] at hrow
    rcases hfirst : g.apply text limit rule position scope run with ⟨first | _ | _, between⟩ <;>
      rw [hfirst] at hrow <;> simp only [Answer.andThen] at hrow
    · rcases hothers : (g.apply text limit).applyParts rules first.stop first.scope between with
        ⟨others | _ | _, _⟩ <;> rw [hothers] at hrow <;> cases hrow
      exact ((h hfirst).trans (Layers.applyParts hothers)).congr fun _ => makesPart_cons_iff hfirst
    · cases hrow
    · cases hrow

/-- A choice adds what the alternative adds that matches. -/
lemma Layers.applyChoice :
    ∀ {rules : List (Rule ν α)} {position : Nat} {scope : Scope} {run after : Run ν α}
      {result : Match α},
      (g.apply text limit).applyChoice rules position scope run = (.matched result, after) →
      g.Adds text (g.MakesAlternative text limit rules position scope run) scope result.scope
  | [], _, _, _, _, _, hresult => by cases hresult
  | rule :: rules, position, scope, run, _, result, hresult => by
    rw [Matcher.applyChoice] at hresult
    rcases hfirst : g.apply text limit rule position scope run with ⟨first | _ | _, between⟩ <;>
      rw [hfirst] at hresult <;> simp only at hresult
    · cases hresult
      exact (h hfirst).congr fun _ => makesAlternative_cons_iff_of_matched hfirst
    · have hnone := Adds.of_unmatched hfirst scope
      exact (hnone.trans (Layers.applyChoice hresult)).congr fun _ =>
        makesAlternative_cons_iff_of_unmatched hfirst
    · cases hresult

/-- A repetition adds what its trips add, one behind the other. -/
lemma Layers.applyTrips {rule : Rule ν α} {least : Int} {most : Option Int} :
    ∀ {budget : Nat} {count : Int} {position : Nat} {scope : Scope} {run after : Run ν α}
      {trips : Trips α},
      (g.apply text limit).applyTrips rule least most budget count position scope run =
        (.matched trips, after) →
      g.Adds text (g.MakesTrip text limit rule most budget count position scope run) scope
        trips.scope
  | 0, _, _, scope, _, _, _, htrips => by
    cases htrips
    exact .refl (by rintro _ ⟨⟩) scope
  | budget + 1, count, position, scope, run, _, _, htrips => by
    rw [Matcher.applyTrips] at htrips
    split at htrips
    · rename_i hclosed
      cases htrips
      refine .refl (fun inner hmakes => ?_) scope
      cases hmakes <;> simp_all
    · rename_i hmost
      have hopen : (most.any fun most => decide (most ≤ count)) = false := Bool.eq_false_iff.2 hmost
      rcases hfirst : g.apply text limit rule position scope run with ⟨first | _ | _, between⟩ <;>
        rw [hfirst] at htrips <;> simp only at htrips
      · split at htrips
        · rename_i hstop
          cases htrips
          refine (h hfirst).congr fun _ => makesTrip_succ_iff_of_last hopen fun _ _ hrule => ?_
          cases hfirst.symm.trans hrule
          exact hstop
        · rename_i hmoved
          rcases hothers : (g.apply text limit).applyTrips rule least most budget (count + 1)
            first.stop
            first.scope between with ⟨others | _ | _, _⟩ <;> rw [hothers] at htrips <;> cases htrips
          exact ((h hfirst).trans (Layers.applyTrips hothers)).congr fun _ =>
            makesTrip_succ_iff_of_matched hopen hfirst hmoved
      · cases htrips
        refine (Adds.of_unmatched hfirst scope).congr fun _ =>
          makesTrip_succ_iff_of_last hopen fun _ _ hrule => ?_
        cases hfirst.symm.trans hrule
      · cases htrips

end Steps

/-! ## The forms of rules -/

section Forms

variable {a : Application ν α} {scope scope' : Scope}

/-- A rule that keeps bindings to itself adds none. -/
lemma Adds.of_sealed (hsealed : a.rule.isSealed = true) (scope : Scope) :
    g.Adds text (· = a) scope scope := by
  refine ⟨[], rfl, fun binding => iff_of_false List.not_mem_nil ?_⟩
  rintro ⟨_, rfl, -, hbinds⟩
  cases hbinds with
  | here hrule _ => simp [hrule, Rule.isSealed] at hsealed
  | inside hopen _ _ _ => simp [hopen] at hsealed

/-- A rule that does not bind its text adds what the applications add that it makes. -/
lemma Adds.of_makes (hopen : a.rule.isSealed = false)
    (hbind : ∀ name rule, a.rule ≠ .bind name rule)
    (hmatches : a.Matches g text) (h : g.Adds text (g.Makes text a) scope scope') :
    g.Adds text (· = a) scope scope' := by
  obtain ⟨new, rfl, hnew⟩ := h
  refine ⟨new, rfl, fun binding => (hnew binding).trans ⟨?_, ?_⟩⟩
  · rintro ⟨inner, hmakes, hinner, hbinds⟩
    exact ⟨a, rfl, hmatches, .inside hopen hmakes hinner hbinds⟩
  · rintro ⟨_, rfl, -, hbinds⟩
    cases hbinds with
    | here hrule _ => exact absurd hrule (hbind _ _)
    | inside _ hmakes hinner hbinds => exact ⟨_, hmakes, hinner, hbinds⟩

/-- A rule without rules inside it adds nothing. -/
lemma Adds.of_leaf (hopen : a.rule.isSealed = false) (hbind : ∀ name rule, a.rule ≠ .bind name rule)
    (hmatches : a.Matches g text) (hleaf : ∀ inner, ¬ g.Makes text a inner) (scope : Scope) :
    g.Adds text (· = a) scope scope :=
  .of_makes hopen hbind hmatches (.refl (fun inner hmakes => absurd hmakes (hleaf inner)) scope)

/-- A rule that binds its text adds this to what the rule inside it adds. -/
lemma Adds.of_bind {limit position : Nat} {name : String} {rule : Rule ν α} {run : Run ν α}
    {result : Match α}
    (hresult : (g.apply text (limit + 1) (.bind name rule) position scope run).1 = .matched result)
    (hmatches : Application.Matches ⟨limit, rule, position, scope, run⟩ g text)
    (h : g.Adds text (· = ⟨limit, rule, position, scope, run⟩) scope scope') :
    g.Adds text (· = ⟨limit + 1, .bind name rule, position, scope, run⟩) scope
      ((name, text.slice position result.stop) :: scope') := by
  obtain ⟨new, rfl, hnew⟩ := h
  refine ⟨(name, text.slice position result.stop) :: new, rfl, fun binding => ?_⟩
  rw [List.mem_cons, hnew]
  constructor
  · rintro (rfl | ⟨_, rfl, hinner, hbinds⟩)
    · exact ⟨_, rfl, ⟨result, hresult⟩, .here rfl hresult⟩
    · exact ⟨_, rfl, ⟨result, hresult⟩, .inside rfl .bind hinner hbinds⟩
  · rintro ⟨_, rfl, -, hbinds⟩
    cases hbinds with
    | here hrule hbound =>
      cases hrule
      cases hresult.symm.trans hbound
      exact .inl rfl
    | inside _ hmakes hinner hbinds =>
      cases hmakes
      exact .inr ⟨_, rfl, hinner, hbinds⟩

end Forms

/-- Behind a rule that keeps bindings to itself there is the scope in front of it. -/
lemma scope_of_sealed {limit position : Nat} {rule : Rule ν α} {scope : Scope} {run : Run ν α}
    {result : Match α} (hsealed : rule.isSealed = true)
    (h : (g.apply text limit rule position scope run).1 = .matched result) :
    result.scope = scope := by
  cases rule with
  | named x =>
    match limit with
    | 0 | 1 => cases h
    | limit + 2 =>
      rw [apply_named] at h
      cases hr : run.remembered? (run.key x position) with
      | some ending =>
        rw [applyNamed_of_remembered hr] at h
        cases ending <;> cases h
        rfl
      | none =>
        rw [applyNamed_of_forgotten _ _ _ _ _ hr] at h
        simp only [inScope] at h
        split at h <;> cases h
        rfl
  | lookahead negative rule =>
    cases limit with
    | zero => cases h
    | succ limit =>
      rw [apply_lookahead_eq, Action.handle] at h
      cases hinner : (Action.within 1 0 (g.apply text limit rule position scope) run).1 <;>
        cases negative <;> rw [hinner] at h <;> cases h <;> rfl
  | _ => cases hsealed

/-- The bindings of a match are those of the rules that belong to it.

**Proof sketch.** Induction on the limit. A rule adds what the applications add that it makes and
that match, in the order in which it makes them, and then perhaps a binding of its own. -/
theorem layers_apply : ∀ limit, g.Layers text limit
  | 0 => by
    intro rule position scope run result after happly
    cases happly
  | limit + 1 => by
    have ih := layers_apply limit
    intro rule position scope run result after happly
    have hmatches : Application.Matches ⟨limit + 1, rule, position, scope, run⟩ g text :=
      ⟨result, congrArg Prod.fst happly⟩
    cases rule with
    | named x =>
      rw [scope_of_sealed rfl (congrArg Prod.fst happly)]
      exact .of_sealed rfl scope
    | lookahead negative rule =>
      rw [scope_of_sealed rfl (congrArg Prod.fst happly)]
      exact .of_sealed rfl scope
    | literal s =>
      rw [apply_literal] at happly
      split at happly <;> cases happly
      exact .of_leaf rfl (by rintro _ _ ⟨⟩) hmatches (by rintro _ ⟨⟩) scope
    | charSet set =>
      rw [apply_charSet] at happly
      split at happly <;> cases happly
      exact .of_leaf rfl (by rintro _ _ ⟨⟩) hmatches (by rintro _ ⟨⟩) scope
    | any =>
      rw [apply_any] at happly
      split at happly <;> cases happly
      exact .of_leaf rfl (by rintro _ _ ⟨⟩) hmatches (by rintro _ ⟨⟩) scope
    | lineStart =>
      rw [apply_lineStart_eq, lineStartOutcome] at happly
      split at happly
      · cases happly
      · split at happly <;> cases happly
        exact .of_leaf rfl (by rintro _ _ ⟨⟩) hmatches (by rintro _ ⟨⟩) scope
    | sequence rules =>
      rw [apply_sequence] at happly
      rcases hrow : (g.apply text limit).applyParts rules position scope run with
          ⟨row | _ | _, between⟩ <;>
        rw [hrow] at happly <;> simp only [Answer.andThen] at happly
      · split at happly <;> cases happly
        refine .of_makes rfl (by rintro _ _ ⟨⟩) hmatches
          ((ih.applyParts hrow).congr fun inner => ⟨?_, .part⟩)
        rintro ⟨⟩
        assumption
      · cases happly
      · cases happly
    | choice rules =>
      refine .of_makes rfl (by rintro _ _ ⟨⟩) hmatches
        ((ih.applyChoice happly).congr fun inner => ⟨?_, .alternative⟩)
      rintro ⟨⟩
      assumption
    | repetition rule least most =>
      rw [apply_repetition] at happly
      rcases htrips : (g.apply text limit).applyTrips rule least most (text.size - position + 1) 0
        position scope run with ⟨trips | _ | _, between⟩ <;> rw [htrips] at happly <;>
        simp only [Answer.andThen] at happly
      · split at happly
        · cases happly
        · split at happly <;> cases happly
          refine .of_makes rfl (by rintro _ _ ⟨⟩) hmatches
            ((ih.applyTrips htrips).congr fun inner => ⟨?_, .trip⟩)
          rintro ⟨⟩
          assumption
      · cases happly
      · cases happly
    | optional rule =>
      rw [apply_optional] at happly
      rcases hfirst : g.apply text limit rule position scope run with ⟨first | _ | _, between⟩ <;>
        rw [hfirst] at happly <;> simp only at happly <;> cases happly
      · exact .of_makes rfl (by rintro _ _ ⟨⟩) hmatches ((ih hfirst).congr fun inner =>
          ⟨fun hmakes => by cases hmakes; rfl, fun h => h ▸ .optional⟩)
      · have hnone := Adds.of_unmatched hfirst scope
        exact .of_makes rfl (by rintro _ _ ⟨⟩) hmatches (hnone.congr fun inner =>
          ⟨fun hmakes => by cases hmakes; rfl, fun h => h ▸ .optional⟩)
    | capture name rule =>
      rw [apply_capture] at happly
      rcases hfirst : g.apply text limit rule position scope run with ⟨first | _ | _, between⟩ <;>
        rw [hfirst] at happly <;> simp only [Answer.andThen] at happly <;> cases happly
      exact .of_makes rfl (by rintro _ _ ⟨⟩) hmatches ((ih hfirst).congr fun inner =>
        ⟨fun hmakes => by cases hmakes; rfl, fun h => h ▸ .capture⟩)
    | build builder rule =>
      rw [apply_build] at happly
      rcases hfirst : g.apply text limit rule position scope run with ⟨first | _ | _, between⟩ <;>
        rw [hfirst] at happly <;> simp only [Answer.andThen] at happly
      · split at happly <;> cases happly
        exact .of_makes rfl (by rintro _ _ ⟨⟩) hmatches ((ih hfirst).congr fun inner =>
          ⟨fun hmakes => by cases hmakes; rfl, fun h => h ▸ .build⟩)
      · cases happly
      · cases happly
    | bind name rule =>
      have hbound := happly
      rw [apply_bind] at hbound
      rcases hfirst : g.apply text limit rule position scope run with ⟨first | _ | _, between⟩ <;>
        rw [hfirst] at hbound <;> simp only [Answer.andThen] at hbound <;> cases hbound
      have hadds :=
        Adds.of_bind (congrArg Prod.fst happly) ⟨first, congrArg Prod.fst hfirst⟩ (ih hfirst)
      exact hadds
    | backref name =>
      rw [apply_backref] at happly
      split at happly
      · cases happly
      · split at happly <;> cases happly
        exact .of_leaf rfl (by rintro _ _ ⟨⟩) hmatches (by rintro _ ⟨⟩) scope

/-! ## What is read of a scope -/

/-- In scopes that agree on the names it refers back to, a rule has the same outcome but for the
scope behind it, and leaves the same state behind. -/
lemma akin_ending (limit : Nat) (rule : Rule ν α) (position : Nat) {scope other : Scope}
    (h : scope.Agree rule.refers other) :
    Action.Akin (fun result result' => result'.toEnding = result.toEnding)
      (g.apply text limit rule position scope) (g.apply text limit rule position other) := by
  intro run
  obtain ⟨hrun, hrelated⟩ :=
    g.akin_apply text limit rule (List.Subset.refl _) position scope other h run
  refine ⟨hrun, ?_⟩
  generalize (g.apply text limit rule position scope run).1 = outcome at hrelated ⊢
  generalize (g.apply text limit rule position other run).1 = outcome' at hrelated ⊢
  cases hrelated with
  | matched hmatch =>
    obtain ⟨scope', -, rfl⟩ := hmatch
    exact .matched rfl
  | unmatched => exact .unmatched
  | stopped cause => exact .stopped cause

/-- Bindings stay where they belong, in whatever state a rule is applied.

* Behind a match there is the scope in front of it with the bindings on top that belong to the
  match: the text of the rule itself, if it binds this, and the texts of the rules inside it that
  do.
* Behind a named rule or a lookahead there is just the scope in front of it.
* In scopes in which the same texts are bound to all names, a rule ends in the same way and with the
  same value, or stops the parse for the same reason, and leaves the same state behind, reports
  included. A named rule does so in any two scopes. -/
theorem bindings_stay (g : Grammar ν α) (text : Text) (limit : Nat) (rule : Rule ν α)
    (position : Nat) (scope : Scope) (run : Run ν α) :
    (∀ result, (g.apply text limit rule position scope run).1 = .matched result →
      (∃ new, result.scope = new ++ scope ∧
        ∀ binding, binding ∈ new ↔ g.Binds text ⟨limit, rule, position, scope, run⟩ binding) ∧
      (rule.isSealed = true → result.scope = scope)) ∧
    ∀ other : Scope, ((∀ name, other.lookup name = scope.lookup name) ∨ ∃ x, rule = .named x) →
      Outcome.Related (fun result result' => result'.toEnding = result.toEnding)
        (g.apply text limit rule position scope run).1
        (g.apply text limit rule position other run).1 ∧
      (g.apply text limit rule position other run).2 =
      (g.apply text limit rule position scope run).2 := by
  refine ⟨fun result hresult => ⟨?_, fun hsealed => scope_of_sealed hsealed hresult⟩,
    fun other hother => ?_⟩
  · obtain ⟨new, hscope, hnew⟩ := layers_apply limit (Prod.ext hresult rfl)
    refine ⟨new, hscope, fun binding => (hnew binding).trans ⟨?_, fun hbinds => ?_⟩⟩
    · rintro ⟨_, rfl, -, hbinds⟩
      exact hbinds
    · exact ⟨_, rfl, ⟨result, hresult⟩, hbinds⟩
  · have hagree : scope.Agree rule.refers other := by
      rcases hother with hall | ⟨x, rfl⟩
      · exact fun name _ => hall name
      · exact nofun
    exact (akin_ending limit rule position hagree run).symm

end Grammar

namespace Program

/-- A letter that is bound, looked at once more under another name, and found again. -/
def doubled : Pattern :=
  .sequence [.bind "x" (.literal "a"), .lookahead false (.bind "y" (.literal "a")), .backref "x"]

/-- It binds the letter once, and what was bound before it does not matter. -/
theorem bindings_stay_doubled :
    (grammar.apply (.ofString "aa") 6 doubled 0 [("x", "z")] (.fresh true false)).1 =
        .matched ⟨⟨2, none⟩, [("x", "a"), ("x", "z")]⟩ ∧
      (∀ binding, grammar.Binds (.ofString "aa") ⟨6, doubled, 0, [("x", "z")], .fresh true false⟩
        binding ↔
        binding = ("x", "a")) ∧
      ∃ result, (grammar.apply (.ofString "aa") 6 doubled 0 [("x", "z"), ("x", "q")]
        (.fresh true false)).1 = .matched result ∧ result.toEnding = ⟨2, none⟩ := by
  have hmatched : (grammar.apply (.ofString "aa") 6 doubled 0 [("x", "z")] (.fresh true false)).1 =
      .matched ⟨⟨2, none⟩, [("x", "a"), ("x", "z")]⟩ := rfl
  obtain ⟨hbindings, hscopes⟩ := grammar.bindings_stay (.ofString "aa") 6 doubled 0 [("x", "z")]
    (.fresh true false)
  obtain ⟨⟨new, hscope, hnew⟩, -⟩ := hbindings _ hmatched
  obtain rfl : [("x", "a")] = new := List.append_cancel_right hscope
  have hlookup :
      ∀ name, List.lookup name [("x", "z"), ("x", "q")] = List.lookup name [("x", "z")] := by
    intro name
    simp only [List.lookup_cons, List.lookup_nil]
    split <;> rfl
  have hsame := (hscopes [("x", "z"), ("x", "q")] (.inl hlookup)).1
  rw [hmatched] at hsame
  refine ⟨hmatched, fun binding => (hnew binding).symm.trans List.mem_singleton, ?_⟩
  generalize (grammar.apply (.ofString "aa") 6 doubled 0 [("x", "z"), ("x", "q")]
    (.fresh true false)).1 =
    outcome at hsame
  cases hsame with
  | matched hending => exact ⟨_, rfl, hending⟩

end Program

end Packrat
