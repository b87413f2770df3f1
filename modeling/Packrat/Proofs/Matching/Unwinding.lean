import Packrat.Proofs.Matching.Compositional
set_option autoImplicit false
set_option relaxedAutoImplicit false

/-!
# How applications leave the state

Lookaheads and named rules change the counters of a state while they apply what is inside them.
However that ends, with a match, without one, with a flaw of the grammar or beyond the limit, the
counters are back where they were; and what a state knows is never lost: neither the furthest
failure nor anything that is remembered.

Nothing is asked of the state in which a rule is applied. In particular, what it remembers may be
wrong.

## Main definitions

* `Packrat.Run.Since` — what a state knows is known later on.
* `Packrat.Run.Unwound` — a state that work leaves behind with the counters as they were.

## Main results

* `Packrat.Grammar.applyBy_unwound` — every application leaves such a state behind, however it ends.
-/

namespace Packrat

variable {ν α : Type} [DecidableEq ν]

/-! ## The furthest failure -/

/-- The furthest failure has not moved back, and as long as it has not moved at all, nothing that
was missing there has been dropped. -/
structure Frontier.Since (before after : Frontier) : Prop where
  position_le : before.position ≤ after.position
  expected_subset : after.position = before.position → before.expected ⊆ after.expected

namespace Frontier.Since

variable {before between after : Frontier}

/-- The furthest failure is not behind itself. -/
lemma refl (f : Frontier) : f.Since f := ⟨Nat.le_refl _, fun _ => List.Subset.refl _⟩

/-- The furthest failure does not move back in two steps, either. -/
lemma trans (h : before.Since between) (h' : between.Since after) : before.Since after := by
  refine ⟨Nat.le_trans h.position_le h'.position_le, fun heq => ?_⟩
  have hle := h.position_le
  have hle' := h'.position_le
  exact List.Subset.trans (h.expected_subset (by omega)) (h'.expected_subset (by omega))

/-- One more report does not move the furthest failure back. -/
lemma note (f : Frontier) (position : Nat) (description : String) :
    f.Since (f.note position description) := by
  unfold Frontier.note
  split
  · rename_i hlt
    exact ⟨Nat.le_of_lt hlt, fun heq => absurd heq (Nat.ne_of_gt hlt)⟩
  · split
    · rename_i heq
      exact ⟨Nat.le_of_eq heq.symm, fun _ s hs => (mem_insertSorted _ _ _).2 (.inr hs)⟩
    · exact refl f

/-- Reports do not move the furthest failure back. -/
lemma noteAll (f : Frontier) (reports : List Report) : f.Since (f.noteAll reports) := by
  induction reports generalizing f with
  | nil => exact refl f
  | cons report reports ih => exact (note f report.1 report.2).trans (ih _)

end Frontier.Since

/-! ## States -/

/-- What is known in a state is still known in one that comes later: the furthest failure, and
everything that is remembered. -/
structure Run.Since (before after : Run ν α) : Prop where
  frontier : before.frontier.Since after.frontier
  memoizes : after.memo.isSome = before.memo.isSome
  remembered : ∀ key ending, before.remembered? key = some ending →
    after.remembered? key = some ending

/-- A state that comes later and has the counters of the one before. -/
structure Run.Unwound (before after : Run ν α) : Prop extends before.Since after where
  quiet : after.quiet = before.quiet
  depth : after.depth = before.depth

namespace Run

variable {before between after run : Run ν α}

/-- What is known in a state is known in it. -/
lemma Since.refl (run : Run ν α) : run.Since run := ⟨.refl _, rfl, fun _ _ h => h⟩

/-- What is known is still known two steps later. -/
lemma Since.trans (h : before.Since between) (h' : between.Since after) : before.Since after where
  frontier := h.frontier.trans h'.frontier
  memoizes := h'.memoizes.trans h.memoizes
  remembered key ending hk := h'.remembered key ending (h.remembered key ending hk)

/-- Reports that are heard take nothing back. -/
lemma Heard.since {reports : List Report} (h : Run.Heard reports before after)
    (hm : after.memo = before.memo) : before.Since after where
  frontier := by
    rw [h.frontier]
    split
    · exact .noteAll _ _
    · exact .refl _
  memoizes := by rw [hm]
  remembered key ending hk := by rwa [remembered?, hm]

/-- Reports that are heard leave the counters as they were. -/
lemma Heard.unwound {reports : List Report} (h : Run.Heard reports before after)
    (hm : after.memo = before.memo) : before.Unwound after :=
  ⟨h.since hm, h.quiet, h.depth⟩

/-- A state is unwound from itself. -/
lemma Unwound.refl (run : Run ν α) : run.Unwound run := ⟨.refl run, rfl, rfl⟩

/-- Two pieces of work one behind the other leave the state unwound if each of them does. -/
lemma Unwound.trans (h : before.Unwound between) (h' : between.Unwound after) :
    before.Unwound after :=
  ⟨h.toSince.trans h'.toSince, h'.quiet.trans h.quiet, h'.depth.trans h.depth⟩

/-- Counters that were raised and are lowered again are as they were. -/
lemma Unwound.within {amount : Int} {deeper : Nat}
    (h : Run.Unwound { run with quiet := run.quiet + amount, depth := run.depth + deeper } after) :
    run.Unwound { after with
      quiet := after.quiet + -amount, depth := after.depth - deeper } where
  frontier := h.frontier
  memoizes := h.memoizes
  remembered := h.remembered
  quiet := by simp only [h.quiet]; omega
  depth := by simp only [h.depth]; omega

end Run

/-! ## Applications -/

/-- At the limit, the family of actions leaves every state unwound. -/
def Action.Unwinds (β : Type) (c : Nat → Action ν α β) (limit : Nat) : Prop :=
  ∀ run : Run ν α, run.Unwound (c limit run).2

/-- All kinds of actions leave every state unwound. -/
lemma Action.compositional_unwinds : Action.Compositional (@Action.Unwinds ν α _) where
  pure _ _ run := .refl run
  missing position description _ run :=
    (Run.Heard.fail run position description).unwound (Grammar.memo_fail run position description)
  handle hc _ hn _ run := (hc run).trans (hn _ _)
  within hc _ _ _ _ := (hc _).within

namespace Grammar

variable (g : Grammar ν α)

/-- When a named rule ends, only its own result changes among those that are remembered. -/
lemma remembered?_settleOutcome_of_ne {key other : Memo.Key ν} (h : other ≠ key)
    (outcome : Outcome α (Match α)) (run : Run ν α) :
    (g.settleOutcome key outcome run).remembered? other = run.remembered? other := by
  rw [Run.remembered?, Run.remembered?, memo_settleOutcome]
  cases run.memo <;> cases outcome <;> simp [memoAfter, Memo.find?_insert, h]

/-- Whether results are remembered does not change. -/
lemma memoizes_settleOutcome (key : Memo.Key ν) (outcome : Outcome α (Match α)) (run : Run ν α) :
    (g.settleOutcome key outcome run).memo.isSome = run.memo.isSome := by
  rw [memo_settleOutcome]
  cases outcome <;> simp [memoAfter]

/-- A named rule leaves every state unwound if its body does. What was remembered before is not
overwritten, because the result of this rule was not among it. -/
lemma unwound_applyNamed {m : Matcher ν α} {x : ν} {position : Nat}
    (h : ∀ run : Run ν α, run.Unwound (g.applyBody m x position run).2) (scope : Scope)
    (run : Run ν α) : run.Unwound (g.applyNamed m x position scope run).2 := by
  cases hr : run.remembered? (run.key x position) with
  | some ending =>
    have hkept : (g.applyNamed m x position scope run).2 = run := by
      simp only [applyNamed, hr]
      cases ending <;> rfl
    rw [hkept]
    exact .refl run
  | none =>
    rw [g.applyNamed_of_forgotten m x position scope hr]
    have hrecord := (Run.Heard.record run (.enter run.depth x position)).unwound (memo_record run _)
    have hbody := hrecord.trans (h (run.record (.enter run.depth x position)))
    have hsettle := g.heard_settleOutcome (run.key x position)
      (g.applyBody m x position (run.record (.enter run.depth x position))).1
      (g.applyBody m x position (run.record (.enter run.depth x position))).2
    refine ⟨⟨?_, ?_, fun key ending hk => ?_⟩, ?_, ?_⟩
    · refine hbody.frontier.trans ?_
      rw [hsettle.frontier]
      split
      · exact .noteAll _ _
      · exact .refl _
    · rw [memoizes_settleOutcome]
      exact hbody.memoizes
    -- What was remembered before has another key, as this one was looked up first.
    · have hne : key ≠ run.key x position := by
        rintro rfl
        rw [hr] at hk
        cases hk
      rw [remembered?_settleOutcome_of_ne g hne]
      exact hbody.remembered key ending hk
    · exact hsettle.quiet.trans hbody.quiet
    · exact hsettle.depth.trans hbody.depth

/-- Every application leaves the state unwound, in whatever state it starts, however the text is
read and however it ends. -/
theorem unwinds_applyBy (reading : Reading) (limit : Nat) (rule : Rule ν α) (position : Nat)
    (scope : Scope) :
    Action.Unwinds _ (fun limit => g.applyBy reading limit rule position scope) limit :=
  Action.compositional_unwinds.applyBy (fun _ _ _ run => .refl run) (fun _ _ _ _ h => h)
    (fun _ _ _ run => .refl run) (fun _ _ _ scope h => g.unwound_applyNamed h scope)
    limit rule position scope

/-- However an application ends, with a match, without one, with a flaw of the grammar or beyond the
limit, the counters are back where they were, the furthest failure has not moved back, nothing that
was missing there is dropped as long as it has not moved, and everything that was remembered still
is. -/
theorem applyBy_unwound (reading : Reading) (limit : Nat) (rule : Rule ν α) (position : Nat)
    (scope : Scope) (run : Run ν α) :
    run.Unwound (g.applyBy reading limit rule position scope run).2 :=
  g.unwinds_applyBy reading limit rule position scope run

end Grammar

end Packrat
