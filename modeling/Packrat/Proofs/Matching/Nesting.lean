import Packrat.Proofs.Matching.Plain
set_option autoImplicit false
set_option relaxedAutoImplicit false

/-!
# Rules that are nested to a fixed depth

Where no named rule leads back to itself, the depth of nesting can be told from the grammar alone,
without a text. A limit of that depth is never exceeded, in whatever state the rule is applied.

## Main definitions

* `Packrat.Grammar.fits` — whether a limit is enough for the nesting that the grammar shows.
* `Packrat.Action.Shallow` — an action that never exceeds its limit.

## Main results

* `Packrat.Grammar.shallow_apply` — a rule that fits a limit never exceeds it.
-/

namespace Packrat

variable {ν α β γ : Type} [DecidableEq ν]

/-- Whether a limit is enough for a rule and all that is inside it, the bodies of named rules
included. -/
def Grammar.fits (g : Grammar ν α) : Nat → Rule ν α → Bool
  | 0, _ => false
  | limit + 1, rule =>
    match rule with
    | .literal _ | .charSet _ | .any | .lineStart | .backref _ => true
    | .sequence rules | .choice rules => rules.all (g.fits limit)
    | .repetition rule _ _ | .optional rule | .lookahead _ rule | .capture _ rule | .build _ rule
    | .bind _ rule => g.fits limit rule
    | .named x =>
      match limit with
      | 0 => false
      | limit + 1 =>
        match (g.define x).body with
        | .error _ => true
        | .ok body => g.fits limit body

/-- The action never exceeds its limit. -/
def Action.Shallow (c : Action ν α β) : Prop := ∀ run, (c run).1 ≠ .stopped .tooDeep

namespace Action.Shallow

/-- An outcome other than that of the limit is shallow. -/
lemma pure {outcome : Outcome α β} (h : outcome ≠ .stopped .tooDeep) :
    Action.Shallow (fun run : Run ν α => (outcome, run)) := fun _ => h

/-- An action is shallow if it is so itself and whatever is done with its outcome is. -/
lemma handle {c : Action ν α β} {next : Outcome α β → Action ν α γ} (h : c.Shallow)
    (hn : ∀ outcome, outcome ≠ .stopped .tooDeep → (next outcome).Shallow) :
    (c.handle next).Shallow :=
  fun run => hn _ (h run) _

/-- An action is shallow if it goes on with shallow ones. -/
lemma andThen {c : Action ν α β} {next : β → Action ν α γ} (h : c.Shallow)
    (hn : ∀ result, (next result).Shallow) :
    Action.Shallow (fun run => (c run).andThen next) := by
  rw [Action.andThen_eq_handle]
  refine h.handle fun outcome hne => ?_
  cases outcome with
  | matched result => exact hn result
  | unmatched => exact pure (by simp)
  | stopped cause => exact pure fun h => hne (by cases h; rfl)

/-- An action with another one to try instead is shallow if both are. -/
lemma onMismatch {c other : Action ν α β} (h : c.Shallow) (ho : other.Shallow) :
    (c.handle (Action.onMismatch other)).Shallow := by
  refine h.handle fun outcome hne => ?_
  cases outcome with
  | unmatched => exact ho
  | matched result => exact pure (by simp)
  | stopped cause => exact pure hne

end Action.Shallow

namespace Matcher

variable {m : Matcher ν α}

/-- The matcher never exceeds its limit at the rule, wherever that is applied. -/
def Shallow (m : Matcher ν α) (rule : Rule ν α) : Prop :=
  ∀ position scope, Action.Shallow (m rule position scope)

/-- A row of shallow rules is shallow. -/
lemma Shallow.applyParts :
    ∀ {rules : List (Rule ν α)}, (∀ rule ∈ rules, m.Shallow rule) →
      ∀ position scope, Action.Shallow (m.applyParts rules position scope)
  | [], _, _, _ => .pure (by simp)
  | rule :: rules, h, position, scope =>
    (h rule (by simp) position scope).andThen fun first =>
      (Shallow.applyParts (fun rule hr => h rule (by simp [hr])) first.stop first.scope).andThen
        fun _ => .pure (by simp)

/-- A choice of shallow rules is shallow. -/
lemma Shallow.applyChoice :
    ∀ {rules : List (Rule ν α)}, (∀ rule ∈ rules, m.Shallow rule) →
      ∀ position scope, Action.Shallow (m.applyChoice rules position scope)
  | [], _, _, _ => .pure (by simp)
  | rule :: rules, h, position, scope => by
    rw [applyChoice_cons]
    exact (h rule (by simp) position scope).onMismatch
      (Shallow.applyChoice (fun rule hr => h rule (by simp [hr])) position scope)

/-- The trips of a shallow rule are shallow. -/
lemma Shallow.applyTrips {rule : Rule ν α} (h : m.Shallow rule) (least : Int)
    (most : Option Int) :
    ∀ budget count position scope,
      Action.Shallow (m.applyTrips rule least most budget count position scope)
  | 0, _, _, _ => .pure (by simp)
  | budget + 1, count, position, scope => by
    rw [applyTrips_succ]
    split
    · exact .pure (by simp)
    · refine (h position scope).handle fun outcome hne => ?_
      cases outcome with
      | unmatched => exact .pure (by simp)
      | stopped cause => exact .pure fun h => hne (by cases h; rfl)
      | matched first =>
        simp only [afterTrip]
        split
        · exact .pure (by simp)
        · exact (Shallow.applyTrips h least most budget _ first.stop first.scope).andThen
            fun _ => .pure (by simp)

end Matcher

namespace Grammar

variable {g : Grammar ν α} {text : Text}

/-- No test exceeds the limit. -/
lemma shallow_passOrMiss (test : Bool) (position stop : Nat) (scope : Scope)
    (description : String) :
    Action.Shallow (passOrMiss test position stop scope description : Action ν α (Match α)) := by
  cases test <;> simp [Action.Shallow, passOrMiss, Run.missing, Run.passed]

/-- A named rule whose body is shallow is shallow, whether its result is remembered or not. -/
lemma shallow_applyNamed {m : Matcher ν α} {x : ν} {position : Nat}
    (h : Action.Shallow (g.applyBody m x position)) (scope : Scope) :
    Action.Shallow (g.applyNamed m x position scope) := by
  intro run
  cases hr : run.remembered? (run.key x position) with
  | some ending =>
    simp only [applyNamed, hr]
    cases ending <;> simp [resume]
  | none =>
    rw [g.applyNamed_of_forgotten m x position scope hr]
    have hbody := h (run.record (.enter run.depth x position))
    cases hout : (g.applyBody m x position (run.record (.enter run.depth x position))).1 with
    | matched result => simp [hout, inScope]
    | unmatched => simp [hout, inScope]
    | stopped cause =>
      rw [hout] at hbody
      simp only [hout, inScope]
      exact fun hs => hbody (by cases hs; rfl)

/-- A rule that fits a limit never exceeds it.

**Proof sketch.** Induction on the limit. Whatever a form of rule applies fits the limit below. -/
theorem shallow_apply : ∀ limit {rule : Rule ν α}, g.fits limit rule = true →
    Matcher.Shallow (g.apply text limit) rule
  | 0, _, h => by cases h
  | limit + 1, rule, h => by
    intro position scope
    cases rule with
    | literal s =>
      rw [apply_literal_eq]
      exact shallow_passOrMiss _ _ _ _ _
    | charSet set =>
      rw [apply_charSet_eq]
      exact shallow_passOrMiss _ _ _ _ _
    | any =>
      rw [apply_any_eq]
      exact shallow_passOrMiss _ _ _ _ _
    | lineStart =>
      rw [apply_lineStart_eq, lineStartOutcome]
      cases text.startsLine? position with
      | none => exact .pure (by simp)
      | some starts => cases starts <;> exact .pure (by simp)
    | sequence rules =>
      have hall := List.all_eq_true.1 h
      refine (Matcher.Shallow.applyParts (fun rule hr => shallow_apply limit (hall rule hr))
        position scope).andThen fun row => ?_
      cases mergeValues row.values <;> exact .pure (by simp)
    | choice rules =>
      have hall := List.all_eq_true.1 h
      exact Matcher.Shallow.applyChoice (fun rule hr => shallow_apply limit (hall rule hr))
        position scope
    | repetition rule least most =>
      have hrule : g.fits limit rule = true := h
      refine ((shallow_apply limit hrule).applyTrips least most _ 0 position scope).andThen
        fun trips => ?_
      split
      · exact .pure (by simp)
      · cases g.repetitionValue rule trips.values <;> exact .pure (by simp)
    | optional rule =>
      have hrule : g.fits limit rule = true := h
      rw [apply_optional_eq]
      exact (shallow_apply limit hrule position scope).onMismatch (.pure (by simp))
    | lookahead negative rule =>
      have hrule : g.fits limit rule = true := h
      rw [apply_lookahead_eq]
      exact Action.Shallow.handle (fun run => shallow_apply limit hrule position scope _)
        fun outcome hne => .pure (afterLook_ne_tooDeep hne _ _ _)
    | capture name rule =>
      have hrule : g.fits limit rule = true := h
      exact (shallow_apply limit hrule position scope).andThen fun _ => .pure (by simp)
    | build builder rule =>
      have hrule : g.fits limit rule = true := h
      refine (shallow_apply limit hrule position scope).andThen fun result => ?_
      cases builder.make (.ofProduct result.value) <;> exact .pure (by simp)
    | bind name rule =>
      have hrule : g.fits limit rule = true := h
      exact (shallow_apply limit hrule position scope).andThen fun _ => .pure (by simp)
    | backref name =>
      rw [apply_backref_eq]
      cases scope.lookup name with
      | none => exact .pure (by simp)
      | some bound => exact shallow_passOrMiss _ _ _ _ _
    | named x =>
      cases limit with
      | zero => cases h
      | succ limit =>
        change Action.Shallow (g.applyNamed (g.apply text limit) x position scope)
        refine shallow_applyNamed (fun run => ?_) scope
        rw [applyBody_eq, Action.within]
        simp only [fits] at h
        cases hbody : (g.define x).body with
        | error mistake => simp [bodyAction, hbody]
        | ok body =>
          rw [hbody] at h
          simpa [bodyAction, hbody] using shallow_apply limit h position [] _

end Grammar

end Packrat
