import Packrat.Proofs.Matching.Plain
set_option autoImplicit false
set_option relaxedAutoImplicit false

/-!
# Actions that keep an invariant

Often a property of states holds again behind everything that is done in a state that has it, and
whatever is found on the way is then as it should be. Applications of rules are put together from a
few kinds of actions, and each way to put them together passes this on. What has to be shown of the
property itself is little: reports must not break it, and neither must the results of named rules
that are remembered.

## Main definitions

* `Packrat.Run.Invariant` — properties of states that have nothing to do with counters and the
  trace.
* `Packrat.Action.Keeps` — an action that keeps a property, and whose results are as they should be.

## Main results

* `Packrat.Action.Keeps.handle`, `Packrat.Action.Keeps.andThen` — actions one behind the other.
* `Packrat.Action.Keeps.applyNamed` — a named rule keeps what its body keeps.
-/

namespace Packrat

variable {ν α β γ : Type} [DecidableEq ν]

/-- A property of states for which it makes no difference how deep the work is, whether failures are
kept quiet, and what has been traced. -/
structure Run.Invariant (inv : Run ν α → Prop) : Prop where
  within : ∀ (run : Run ν α) (quiet : Int) (depth : Nat), inv run → inv { run with quiet, depth }
  record : ∀ (run : Run ν α) (event : Event ν), inv run → inv (run.record event)

/-- An action that, in a state with the property, leaves such a state behind; and whatever result it
has there is as it should be. -/
def Action.Keeps (inv : Run ν α → Prop) (good : β → Prop) (c : Action ν α β) : Prop :=
  ∀ run, inv run → inv (c run).2 ∧ ∀ result, (c run).1 = .matched result → good result

namespace Action.Keeps

variable {inv : Run ν α → Prop} {good : β → Prop} {fine : γ → Prop} {c : Action ν α β}

/-! ## Putting actions together -/

/-- An outcome on its own changes nothing about the state. -/
lemma pure {outcome : Outcome α β} (h : ∀ result, outcome = .matched result → good result) :
    Keeps inv good (fun run => (outcome, run)) := fun _ hrun => ⟨hrun, h⟩

/-- A match is kept if its result is as it should be. -/
lemma matched {result : β} (h : good result) :
    Keeps inv good (fun run => (.matched result, run)) := by
  refine pure fun other hother => ?_
  cases hother
  exact h

/-- Nothing is asked of an action without a match. -/
lemma unmatched : Keeps inv good (fun run => (.unmatched, run)) := pure nofun

/-- Nothing is asked of an action that stops. -/
lemma stopped (cause : Stop α) : Keeps inv good (fun run => (.stopped cause, run)) := pure nofun

/-- A report keeps the property if it does not break it. -/
lemma missing {good : Match α → Prop} {position : Nat} {description : String}
    (h : ∀ run : Run ν α, inv run → inv (run.fail position description)) :
    Keeps inv good (fun run => run.missing position description) :=
  fun run hrun => ⟨h run hrun, nofun⟩

/-- A test is a match if it is passed, and a report if it is not. -/
lemma passOrMiss {good : Match α → Prop} {test : Bool} {position stop : Nat} {scope : Scope}
    {description : String} (hmiss : ∀ run : Run ν α, inv run → inv (run.fail position description))
    (hpass : test = true → good ⟨⟨stop, none⟩, scope⟩) :
    Keeps inv good (Grammar.passOrMiss test position stop scope description) := by
  cases test with
  | false => exact missing hmiss
  | true => exact matched (hpass rfl)

/-- What is done with an outcome may rely on what is known of the result. -/
lemma handle {next : Outcome α β → Action ν α γ} (h : c.Keeps inv good)
    (hn : ∀ outcome, (∀ result, outcome = .matched result → good result) →
      (next outcome).Keeps inv fine) : (c.handle next).Keeps inv fine :=
  fun run hrun => hn _ (h run hrun).2 _ (h run hrun).1

/-- An action goes on after a match with a result that is as it should be, and else ends there. -/
lemma andThen {next : β → Action ν α γ} (h : c.Keeps inv good)
    (hn : ∀ result, good result → (next result).Keeps inv fine) :
    Keeps inv fine (fun run => (c run).andThen next) := by
  rw [andThen_eq_handle]
  refine h.handle fun outcome hout => ?_
  cases outcome with
  | matched result => exact hn result (hout result rfl)
  | unmatched => exact unmatched
  | stopped cause => exact stopped cause

/-- Where one action does not match, another one may be tried for the same kind of result. -/
lemma onMismatch {other : Action ν α β} (h : c.Keeps inv good) (ho : other.Keeps inv good) :
    (c.handle (Action.onMismatch other)).Keeps inv good := by
  refine h.handle fun outcome hout => ?_
  cases outcome with
  | unmatched => exact ho
  | matched result => exact matched (hout result rfl)
  | stopped cause => exact stopped cause

/-- Less may be asked of the results. -/
lemma mono {other : β → Prop} (h : c.Keeps inv good) (hle : ∀ result, good result → other result) :
    c.Keeps inv other :=
  fun run hrun => ⟨(h run hrun).1, fun result hout => hle result ((h run hrun).2 result hout)⟩

/-- Work inside other rules keeps an invariant, because the counters do not matter to it. -/
lemma within (hinv : Run.Invariant inv) (h : c.Keeps inv good) (amount : Int) (deeper : Nat) :
    (c.within amount deeper).Keeps inv good := by
  intro run hrun
  obtain ⟨hafter, hgood⟩ := h _ (hinv.within run (run.quiet + amount) (run.depth + deeper) hrun)
  exact ⟨hinv.within _ _ _ hafter, hgood⟩

/-! ## Named rules -/

variable {g : Grammar ν α} {m : Matcher ν α} {x : ν} {position : Nat}

/-- The body of a named rule keeps an invariant where its rule does; without a body, the work
stops. -/
lemma applyBody {good : Match α → Prop} (hinv : Run.Invariant inv)
    (h : ∀ body, (g.define x).body = .ok body → Keeps inv good (m body position [])) :
    Keeps inv good (g.applyBody m x position) := by
  rw [Grammar.applyBody_eq]
  refine within hinv ?_ (g.hushing x) 1
  unfold Grammar.bodyAction
  cases hbody : (g.define x).body with
  | error mistake => exact stopped _
  | ok body => exact h body hbody

/-- A named rule keeps an invariant and ends as it should if its body does, if what is remembered of
it is as it should be, and if remembering the end of its body keeps the invariant too. -/
lemma applyNamed (good : Ending α → Prop) (hinv : Run.Invariant inv)
    (hremembered : ∀ run ending, inv run →
      run.remembered? (run.key x position) = some (some ending) → good ending)
    (hsettle : ∀ (before after : Run ν α) outcome, inv after →
      (∀ result, outcome = .matched result → good result.toEnding) →
      inv (g.settleOutcome (before.key x position) outcome after))
    (h : ∀ body, (g.define x).body = .ok body →
      Keeps inv (fun result => good result.toEnding) (m body position [])) (scope : Scope) :
    Keeps inv (fun result => good result.toEnding) (g.applyNamed m x position scope) := by
  intro run hrun
  cases hr : run.remembered? (run.key x position) with
  | some ending =>
    simp only [Grammar.applyNamed, hr]
    cases ending with
    | none => exact unmatched run hrun
    | some ending =>
      refine ⟨hrun, fun result hout => ?_⟩
      cases hout
      exact hremembered run ending hrun hr
  | none =>
    rw [g.applyNamed_of_forgotten m x position scope hr]
    have hrecord := hinv.record run (.enter run.depth x position) hrun
    obtain ⟨hafter, hresult⟩ := applyBody hinv h _ hrecord
    refine ⟨hsettle run _ _ hafter hresult, fun result hout => ?_⟩
    -- The scope is that around the rule, but the match ends where the one of the body does.
    cases hbody : (g.applyBody m x position (run.record (.enter run.depth x position))).1 with
    | matched inner =>
      simp only [hbody, Grammar.inScope, Outcome.matched.injEq] at hout
      rw [← hout]
      exact hresult inner hbody
    | unmatched | stopped _ => simp [hbody, Grammar.inScope] at hout

end Action.Keeps

end Packrat
