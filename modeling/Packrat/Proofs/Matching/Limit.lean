import Mathlib.Tactic.Lemma
import Packrat.Matching.Equations
set_option autoImplicit false
set_option relaxedAutoImplicit false

/-!
# Raising the limit

The limit on nesting decides whether a rule is applied to the end, and nothing else: an answer other
than "nested too deep" is the answer under every larger limit, state included. This holds with and
without remembered results, and for the same reason at every form of rule: whatever is applied
inside is applied under a larger limit, too.

## Main definitions

* `Packrat.Answer.ExtendedBy` — an answer is kept, unless the limit cut it short.
* `Packrat.Matcher.ExtendedBy` — the same of all answers of a matcher.

## Main results

* `Packrat.Grammar.apply_of_le` — an answer under a limit is the answer under every larger one.
-/

namespace Packrat

variable {ν α : Type} [DecidableEq ν]

/-- The second answer is the first, unless the first ran into the limit. -/
def Answer.ExtendedBy {β : Type} (a b : Answer ν α β) : Prop :=
  a.1 ≠ .stopped .tooDeep → b = a

/-- The second matcher answers as the first does wherever that does not run into the limit. -/
def Matcher.ExtendedBy (m n : Matcher ν α) : Prop :=
  ∀ rule position scope run,
    Answer.ExtendedBy (m rule position scope run) (n rule position scope run)

namespace Answer

variable {β γ : Type}

/-- An answer is extended by itself. -/
lemma ExtendedBy.refl (a : Answer ν α β) : a.ExtendedBy a := fun _ => rfl

/-- What is done with a result is kept if the result and what is done with it are. -/
lemma ExtendedBy.andThen {a b : Answer ν α β} {next other : β → Run ν α → Answer ν α γ}
    (h : a.ExtendedBy b) (hn : ∀ result run, (next result run).ExtendedBy (other result run)) :
    (a.andThen next).ExtendedBy (b.andThen other) := by
  intro hne
  obtain ⟨outcome, run⟩ := a
  cases outcome with
  | matched result =>
    rw [h (by simp)]
    exact hn result run hne
  | unmatched => rw [h (by simp)]; rfl
  | stopped cause =>
    have hc : cause ≠ .tooDeep := fun e => hne (e ▸ rfl)
    rw [h (by simpa using hc)]; rfl

end Answer

namespace Matcher

variable {m n : Matcher ν α}

/-- Under a higher limit, a row that did not exceed the limit answers the same. -/
lemma ExtendedBy.applyParts (h : m.ExtendedBy n) :
    ∀ (rules : List (Rule ν α)) (position : Nat) (scope : Scope) (run : Run ν α),
      (m.applyParts rules position scope run).ExtendedBy (n.applyParts rules position scope run)
  | [], _, _, _ => .refl _
  | rule :: rules, position, scope, run => by
    refine Answer.ExtendedBy.andThen (h rule position scope run) fun first run => ?_
    exact Answer.ExtendedBy.andThen (ExtendedBy.applyParts h rules _ _ run) fun _ _ => .refl _

/-- Under a higher limit, a choice that did not exceed the limit answers the same. -/
lemma ExtendedBy.applyChoice (h : m.ExtendedBy n) :
    ∀ (rules : List (Rule ν α)) (position : Nat) (scope : Scope) (run : Run ν α),
      (m.applyChoice rules position scope run).ExtendedBy (n.applyChoice rules position scope run)
  | [], _, _, _ => .refl _
  | rule :: rules, position, scope, run => by
    intro hne
    have hr := h rule position scope run
    rw [Matcher.applyChoice] at hne ⊢
    rw [Matcher.applyChoice]
    rcases hm : m rule position scope run with ⟨outcome, after⟩
    rw [hm] at hne hr
    cases outcome with
    | unmatched =>
      rw [hr (by simp)]
      exact ExtendedBy.applyChoice h rules position scope after hne
    | matched result => rw [hr (by simp)]
    | stopped cause => rw [hr hne]

/-- Under a higher limit, trips that did not exceed the limit are the same. -/
lemma ExtendedBy.applyTrips (h : m.ExtendedBy n) (rule : Rule ν α) (least : Int)
    (most : Option Int) :
    ∀ (budget : Nat) (count : Int) (position : Nat) (scope : Scope) (run : Run ν α),
      (m.applyTrips rule least most budget count position scope run).ExtendedBy
        (n.applyTrips rule least most budget count position scope run)
  | 0, _, _, _, _ => .refl _
  | budget + 1, count, position, scope, run => by
    intro hne
    have hr := h rule position scope run
    rw [Matcher.applyTrips] at hne ⊢
    rw [Matcher.applyTrips]
    split at hne
    · rw [if_pos ‹_›, if_pos ‹_›]
    · rw [if_neg ‹_›, if_neg ‹_›]
      rcases hm : m rule position scope run with ⟨outcome, after⟩
      rw [hm] at hne hr
      cases outcome with
      | unmatched => rw [hr (by simp)]
      | stopped cause =>
        have hc : cause ≠ .tooDeep := fun e => hne (e ▸ rfl)
        rw [hr (by simpa using hc)]
      | matched first =>
        rw [hr (by simp)]
        by_cases hstop : first.stop = position
        · simp only [hstop, if_true]
        · simp only [hstop, if_false] at hne ⊢
          have ih := ExtendedBy.applyTrips h rule least most budget (count + 1) first.stop
            first.scope after
          exact ih.andThen (fun _ _ => .refl _) hne

end Matcher

namespace Grammar

variable (g : Grammar ν α)

/-- The body of a named rule is answered alike by a matcher that extends another. -/
lemma applyBody_extendedBy {m n : Matcher ν α} (h : m.ExtendedBy n) (x : ν) (position : Nat)
    (run : Run ν α) :
    (g.applyBody m x position run).ExtendedBy (g.applyBody n x position run) := by
  intro hne
  simp only [applyBody] at hne ⊢
  cases hb : (g.define x).body with
  | error mistake => rfl
  | ok body =>
    rw [hb] at hne
    simp only at hne ⊢
    rw [h _ _ _ _ hne]

/-- A named rule is answered alike by a matcher that extends another. -/
lemma applyNamed_extendedBy {m n : Matcher ν α} (h : m.ExtendedBy n) (x : ν) (position : Nat)
    (scope : Scope) (run : Run ν α) :
    (g.applyNamed m x position scope run).ExtendedBy (g.applyNamed n x position scope run) := by
  intro hne
  simp only [applyNamed] at hne ⊢
  cases hmemo : run.remembered? (run.key x position) with
  | some ending => rfl
  | none =>
    rw [hmemo] at hne
    have hb := g.applyBody_extendedBy h x position (run.record (.enter run.depth x position))
    simp only at hne ⊢
    rcases hm : g.applyBody m x position (run.record (.enter run.depth x position)) with
      ⟨outcome, after⟩
    rw [hm] at hne hb
    cases outcome with
    | stopped cause => rw [hb hne]
    | unmatched => rw [hb (by simp)]
    | matched result => rw [hb (by simp)]

/-- One more step of the limit changes no answer but "nested too deep".

**Proof sketch.** Induction on the limit. Every form of rule hands its parts to the matcher of the
limit below, which the induction hypothesis extends. -/
lemma apply_extendedBy_succ (text : Text) :
    ∀ limit, Matcher.ExtendedBy (g.apply text limit) (g.apply text (limit + 1))
  | 0 => fun _ _ _ _ hne => absurd rfl hne
  | limit + 1 => by
    have ih := apply_extendedBy_succ text limit
    intro rule position scope run
    cases rule with
    | literal _ | charSet _ | any | lineStart | backref _ => exact .refl _
    | sequence rules => exact (ih.applyParts rules position scope run).andThen fun _ _ => .refl _
    | choice rules => exact ih.applyChoice rules position scope run
    | repetition rule least most =>
      exact (ih.applyTrips rule least most _ 0 position scope run).andThen fun _ _ => .refl _
    | optional rule =>
      intro hne
      have hr := ih rule position scope run
      rw [apply_optional] at hne ⊢
      rw [apply_optional]
      rcases hm : g.apply text limit rule position scope run with ⟨outcome, after⟩
      rw [hm] at hne hr
      cases outcome with
      | unmatched | matched _ => rw [hr (by simp)]
      | stopped cause => rw [hr hne]
    | lookahead negative rule =>
      intro hne
      have hr := ih rule position scope (run.hush 1)
      rw [apply_lookahead] at hne ⊢
      rw [apply_lookahead]
      rcases hm : g.apply text limit rule position scope (run.hush 1) with ⟨outcome, after⟩
      rw [hm] at hne hr
      cases outcome with
      | unmatched | matched _ => rw [hr (by simp)]
      | stopped cause => rw [hr hne]
    | capture name rule => exact (ih rule position scope run).andThen fun _ _ => .refl _
    | build builder rule => exact (ih rule position scope run).andThen fun _ _ => .refl _
    | bind name rule => exact (ih rule position scope run).andThen fun _ _ => .refl _
    | named x =>
      cases limit with
      | zero => exact fun hne => absurd rfl hne
      | succ limit =>
        exact g.applyNamed_extendedBy (apply_extendedBy_succ text limit) x position scope run

/-- An answer other than "nested too deep" is the answer under every larger limit. -/
theorem apply_of_le {text : Text} {limit more : Nat} (hle : limit ≤ more) {rule : Rule ν α}
    {position : Nat} {scope : Scope} {run : Run ν α}
    (hne : (g.apply text limit rule position scope run).1 ≠ .stopped .tooDeep) :
    g.apply text more rule position scope run = g.apply text limit rule position scope run := by
  induction hle with
  | refl => rfl
  | step _ ih => rw [g.apply_extendedBy_succ text _ _ _ _ _ (by rwa [ih]), ih]

end Grammar

end Packrat
