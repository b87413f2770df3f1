import Mathlib.Data.List.Infix
import Mathlib.Tactic.Lemma
import Packrat.Matching.Apply
set_option autoImplicit false
set_option relaxedAutoImplicit false

/-!
# What rules take off a text

Positions, states and limits are how matching is carried out. What a rule means needs none of them:
it takes some of the characters ahead, produces a value and binds texts to names, or it does not
match. This is a function by recursion on the rule, once it is known what each named rule takes.

## Main definitions

* `Packrat.Piece`, `Packrat.Taken` — what is taken and what is left.
* `Packrat.Rule.take` — what a rule takes, given what each named rule takes.

## Main results

* `Packrat.Rule.shortens_take` — what is left is a part of what was ahead.
-/

namespace Packrat

variable {ν α β γ : Type}

/-- What becomes of a result. The other outcomes stay what they are. -/
def Outcome.andThen (outcome : Outcome α β) (next : β → Outcome α γ) : Outcome α γ :=
  match outcome with
  | .matched result => next result
  | .unmatched => .unmatched
  | .stopped cause => .stopped cause

/-- An outcome with its result in another form. -/
def Outcome.map (f : β → γ) (outcome : Outcome α β) : Outcome α γ :=
  outcome.andThen fun result => .matched (f result)

/-- What a piece of a text stands for, if anything, and the characters behind it. -/
structure Piece (α : Type) where
  value : Option (Value α)
  rest : List Char

/-- A piece that a rule takes, and the scope behind it. -/
structure Taken (α : Type) extends Piece α where
  scope : Scope

/-- The pieces that a row of rules takes: what each of them stands for, the characters behind the
last one, and the scope there. -/
structure TakenRow (α : Type) where
  values : List (Option (Value α))
  rest : List Char
  scope : Scope

/-- The pieces that a repetition takes, and the number of trips. -/
structure TakenTrips (α : Type) extends TakenRow α where
  count : Int

/-- Nothing but characters are taken, if these are left. -/
def takeSilently (scope : Scope) : Option (List Char) → Outcome α (Taken α)
  | some rest => .matched ⟨⟨none, rest⟩, scope⟩
  | none => .unmatched

/-- The characters ahead in front of those that are left. -/
def front (cs rest : List Char) : List Char := cs.take (cs.length - rest.length)

/-- The characters behind the first one, if that satisfies the test. -/
def dropChar? (test : Char → Bool) : List Char → Option (List Char)
  | [] => none
  | c :: cs => if test c then some cs else none

/-- What a repetition takes, given what its rule takes. -/
def takeTrips (take : Scope → List Char → Outcome α (Taken α)) (least : Int) (most : Option Int) :
    Nat → Int → Scope → List Char → Outcome α (TakenTrips α)
  | 0, count, scope, cs => .matched ⟨⟨[], cs, scope⟩, count⟩
  | budget + 1, count, scope, cs =>
    if most.any fun most => decide (most ≤ count) then .matched ⟨⟨[], cs, scope⟩, count⟩
    else
      match take scope cs with
      | .unmatched => .matched ⟨⟨[], cs, scope⟩, count⟩
      | .stopped cause => .stopped cause
      | .matched first =>
        if first.rest.length = cs.length then
          .matched ⟨⟨[first.value], cs, first.scope⟩, max (count + 1) least⟩
        else
          (takeTrips take least most budget (count + 1) first.scope first.rest).map fun others =>
            { others with values := first.value :: others.values }

namespace Rule

variable [DecidableEq ν]

/-- What a rule takes off the characters ahead, given the grammar, at which places a line starts and
what each named rule takes. -/
def take (g : Grammar ν α) (lines : List Char → Bool) (env : ν → List Char → Option (Piece α)) :
    Rule ν α → Scope → List Char → Outcome α (Taken α)
  | .literal s, scope, cs => takeSilently scope (cs.dropPrefix? s.toList)
  | .charSet set, scope, cs => takeSilently scope (dropChar? set.contains cs)
  | .any, scope, cs => takeSilently scope (dropChar? (fun _ => true) cs)
  | .lineStart, scope, cs => takeSilently scope (if lines cs then some cs else none)
  | .sequence rules, scope, cs =>
    (takeParts rules scope cs).andThen fun row =>
      match mergeValues row.values with
      | .error values => .stopped (.flaw (.mixture values))
      | .ok value => .matched ⟨⟨value, row.rest⟩, row.scope⟩
  | .choice rules, scope, cs => takeChoice rules scope cs
  | .repetition rule least most, scope, cs =>
    (takeTrips (take g lines env rule) least most (cs.length + 1) 0 scope cs).andThen fun trips =>
      if trips.count < least then .unmatched
      else
        match g.repetitionValue rule trips.values with
        | .error mistake => .stopped (.flaw (.badRule mistake))
        | .ok value => .matched ⟨⟨value, trips.rest⟩, trips.scope⟩
  | .optional rule, scope, cs =>
    match take g lines env rule scope cs with
    | .unmatched => takeSilently scope (some cs)
    | outcome => outcome
  | .lookahead negative rule, scope, cs =>
    match take g lines env rule scope cs with
    | .stopped cause => .stopped cause
    | .unmatched => takeSilently scope (if negative then some cs else none)
    | .matched _ => takeSilently scope (if negative then none else some cs)
  | .capture name rule, scope, cs =>
    (take g lines env rule scope cs).map fun taken =>
      ⟨⟨some (.fields [(name, taken.value.getD
        (.text (String.ofList (front cs taken.rest))))]), taken.rest⟩, taken.scope⟩
  | .build builder rule, scope, cs =>
    (take g lines env rule scope cs).andThen fun taken =>
      match builder.make (.ofProduct taken.value) with
      | .error refusal => .stopped (.flaw (.refused refusal))
      | .ok value => .matched ⟨⟨value, taken.rest⟩, taken.scope⟩
  | .bind name rule, scope, cs =>
    (take g lines env rule scope cs).map fun taken =>
      { taken with scope := (name, String.ofList (front cs taken.rest)) :: taken.scope }
  | .backref name, scope, cs =>
    match scope.lookup name with
    | none => .stopped (.flaw (.unbound name))
    | some bound => takeSilently scope (cs.dropPrefix? bound.toList)
  | .named x, scope, cs =>
    match env x cs with
    | none => .unmatched
    | some piece => .matched ⟨piece, scope⟩
where
  /-- What rules take one behind the other. -/
  takeParts : List (Rule ν α) → Scope → List Char → Outcome α (TakenRow α)
    | [], scope, cs => .matched ⟨[], cs, scope⟩
    | rule :: rules, scope, cs =>
      (take g lines env rule scope cs).andThen fun first =>
        (takeParts rules first.scope first.rest).map fun others =>
          { others with values := first.value :: others.values }
  /-- What the first rule that matches takes. -/
  takeChoice : List (Rule ν α) → Scope → List Char → Outcome α (Taken α)
    | [], _, _ => .unmatched
    | rule :: rules, scope, cs =>
      match take g lines env rule scope cs with
      | .unmatched => takeChoice rules scope cs
      | outcome => outcome

end Rule

/-! ## What is left is a part of what was ahead -/

/-- Whatever result there is leaves a part of the characters ahead. -/
def Outcome.Leaves (rest : β → List Char) (cs : List Char) (outcome : Outcome α β) : Prop :=
  ∀ result, outcome = .matched result → rest result <:+ cs

namespace Outcome.Leaves

variable {rest : β → List Char} {more : γ → List Char} {cs : List Char}

/-- A match leaves an end of what was left. -/
lemma matched {result : β} (h : rest result <:+ cs) :
    Outcome.Leaves rest cs (.matched result : Outcome α β) := by
  rintro _ ⟨⟩
  exact h

/-- Without a match there is nothing to be left. -/
lemma unmatched : Outcome.Leaves rest cs (.unmatched : Outcome α β) := nofun

/-- Where the parse stops, there is nothing to be left. -/
lemma stopped (cause : Stop α) : Outcome.Leaves rest cs (.stopped cause : Outcome α β) := nofun

/-- Pieces of work one behind the other leave less and less. -/
lemma andThen {outcome : Outcome α β} {next : β → Outcome α γ} (h : outcome.Leaves rest cs)
    (hn : ∀ result, rest result <:+ cs → (next result).Leaves more (rest result)) :
    (outcome.andThen next).Leaves more cs := by
  cases outcome with
  | matched result => exact fun last hl => (hn result (h _ rfl) last hl).trans (h _ rfl)
  | unmatched => exact unmatched
  | stopped cause => exact stopped cause

/-- What is made of a result does not change what it leaves. -/
lemma map {outcome : Outcome α β} {f : β → γ} (h : outcome.Leaves rest cs)
    (hf : ∀ result, more (f result) = rest result) : (outcome.map f).Leaves more cs :=
  h.andThen fun result _ => matched (by rw [hf])

end Outcome.Leaves

/-- What is taken leaves a part of the characters ahead. -/
abbrev Outcome.Shortens (cs : List Char) (outcome : Outcome α (Taken α)) : Prop :=
  outcome.Leaves (·.rest) cs

/-- What is taken silently leaves what its reader leaves. -/
lemma shortens_takeSilently (scope : Scope) {cs : List Char} {left : Option (List Char)}
    (h : ∀ rest, left = some rest → rest <:+ cs) :
    (takeSilently scope left : Outcome α (Taken α)).Shortens cs := by
  cases left with
  | none => exact .unmatched
  | some rest => exact .matched (h rest rfl)

/-- Behind characters that are dropped in front, an end is left. -/
lemma dropPrefix?_suffix {cs s rest : List Char} (h : cs.dropPrefix? s = some rest) :
    rest <:+ cs := by
  obtain ⟨front, rfl, -⟩ := List.dropPrefix?_eq_some_iff.1 h
  exact List.suffix_append _ _

/-- Behind a character that is dropped in front, an end is left. -/
lemma dropChar?_suffix {test : Char → Bool} {cs rest : List Char}
    (h : dropChar? test cs = some rest) : rest <:+ cs := by
  cases cs with
  | nil => cases h
  | cons c cs =>
    simp only [dropChar?, Option.ite_none_right_eq_some] at h
    obtain ⟨-, ⟨⟩⟩ := h
    exact List.suffix_cons _ _

/-- Trips leave an end of what was left, if the rule does. -/
lemma leaves_takeTrips {take : Scope → List Char → Outcome α (Taken α)}
    (h : ∀ scope cs, (take scope cs).Shortens cs) (least : Int) (most : Option Int) :
    ∀ (budget : Nat) (count : Int) (scope : Scope) (cs : List Char),
      (takeTrips take least most budget count scope cs).Leaves (·.rest) cs
  | 0, _, _, _ => .matched List.suffix_rfl
  | budget + 1, count, scope, cs => by
    rw [takeTrips]
    split
    · exact .matched List.suffix_rfl
    · have hfirst := h scope cs
      cases hout : take scope cs with
      | unmatched => exact .matched List.suffix_rfl
      | stopped cause => exact .stopped cause
      | matched first =>
        simp only
        split
        · exact .matched List.suffix_rfl
        · have hothers := leaves_takeTrips h least most budget (count + 1) first.scope first.rest
          have hall : ((takeTrips take least most budget (count + 1) first.scope first.rest).map
              fun others => { others with values := first.value :: others.values }).Leaves
              (fun trips => trips.rest) first.rest := hothers.map fun _ => rfl
          exact fun last hl => (hall last hl).trans (hfirst first hout)

namespace Rule

variable [DecidableEq ν] (g : Grammar ν α) (lines : List Char → Bool)
  {env : ν → List Char → Option (Piece α)}

mutual

/-- If named rules take off the front of what is ahead, then so does every rule. -/
lemma shortens_take (h : ∀ x cs piece, env x cs = some piece → piece.rest <:+ cs) :
    ∀ (rule : Rule ν α) (scope : Scope) (cs : List Char),
      (rule.take g lines env scope cs).Shortens cs
  | .literal _, scope, _ => shortens_takeSilently scope fun _ => dropPrefix?_suffix
  | .charSet _, scope, _ | .any, scope, _ => shortens_takeSilently scope fun _ => dropChar?_suffix
  | .lineStart, scope, cs => by
    refine shortens_takeSilently scope fun rest hr => ?_
    split at hr <;> cases hr
    exact List.suffix_rfl
  | .sequence rules, scope, cs => by
    refine (leaves_takeParts h rules scope cs).andThen fun row _ => ?_
    split
    · exact .stopped _
    · exact .matched List.suffix_rfl
  | .choice rules, scope, cs => shortens_takeChoice h rules scope cs
  | .repetition rule least most, scope, cs => by
    refine (leaves_takeTrips (shortens_take h rule) least most _ 0 scope cs).andThen
      fun trips _ => ?_
    split
    · exact .unmatched
    · split
      · exact .stopped _
      · exact .matched List.suffix_rfl
  | .optional rule, scope, cs => by
    have hrule := shortens_take h rule scope cs
    rw [take]
    split
    · exact .matched List.suffix_rfl
    · exact hrule
  | .lookahead negative rule, scope, cs => by
    rw [take]
    split
    · exact .stopped _
    · refine shortens_takeSilently scope fun rest hr => ?_
      split at hr <;> cases hr
      exact List.suffix_rfl
    · refine shortens_takeSilently scope fun rest hr => ?_
      split at hr <;> cases hr
      exact List.suffix_rfl
  | .capture _ rule, scope, cs => (shortens_take h rule scope cs).map fun _ => rfl
  | .build builder rule, scope, cs => by
    refine (shortens_take h rule scope cs).andThen fun taken _ => ?_
    split
    · exact .stopped _
    · exact .matched List.suffix_rfl
  | .bind _ rule, scope, cs => (shortens_take h rule scope cs).map fun _ => rfl
  | .backref name, scope, cs => by
    rw [take]
    split
    · exact .stopped _
    · exact shortens_takeSilently scope fun _ => dropPrefix?_suffix
  | .named x, scope, cs => by
    rw [take]
    split
    · exact .unmatched
    · exact .matched (h x cs _ ‹_›)

/-- A row of rules leaves an end of what was left. -/
lemma leaves_takeParts (h : ∀ x cs piece, env x cs = some piece → piece.rest <:+ cs) :
    ∀ (rules : List (Rule ν α)) (scope : Scope) (cs : List Char),
      (take.takeParts g lines env rules scope cs).Leaves (·.rest) cs
  | [], _, _ => .matched List.suffix_rfl
  | rule :: rules, scope, cs =>
    (shortens_take h rule scope cs).andThen fun first _ =>
      (leaves_takeParts h rules first.scope first.rest).map fun _ => rfl

/-- A choice leaves an end of what was left. -/
lemma shortens_takeChoice (h : ∀ x cs piece, env x cs = some piece → piece.rest <:+ cs) :
    ∀ (rules : List (Rule ν α)) (scope : Scope) (cs : List Char),
      (take.takeChoice g lines env rules scope cs).Shortens cs
  | [], _, _ => .unmatched
  | rule :: rules, scope, cs => by
    have hrule := shortens_take h rule scope cs
    rw [take.takeChoice]
    split
    · exact shortens_takeChoice h rules scope cs
    · exact hrule

end

end Rule

end Packrat
