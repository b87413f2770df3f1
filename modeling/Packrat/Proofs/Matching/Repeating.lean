import Packrat.Proofs.Matching.Taking
set_option autoImplicit false
set_option relaxedAutoImplicit false

/-!
# What repetitions take

A repetition takes a step off the characters ahead as often as there is one to take. Where every
step takes at least one character this is a recursion on the number of characters, and needs no
budget.

Many repetitions only pass over characters of some kind, one or a few at a time. What is left is
what is left once all characters of that kind are dropped.

## Main definitions

* `Packrat.many` — the steps that can be taken one behind the other, and what is left.
* `Packrat.Advances` — every step takes at least one character.

## Main results

* `Packrat.Rule.take_repetition` — what a repetition takes.
* `Packrat.many_eq_dropWhile` — steps over characters of some kind.
-/

namespace Packrat

variable {ν α β : Type}

/-- The steps that can be taken one behind the other, and what is left. -/
def many (step : List Char → Option (β × List Char)) (cs : List Char) : List β × List Char :=
  match step cs with
  | none => ([], cs)
  | some (b, rest) =>
    if rest.length < cs.length then (b :: (many step rest).1, (many step rest).2) else ([b], cs)
termination_by cs.length

/-- Every step takes at least one character off the front of what is ahead. -/
def Advances (step : List Char → Option (β × List Char)) : Prop :=
  ∀ cs b rest, step cs = some (b, rest) → ∃ taken, taken ≠ [] ∧ cs = taken ++ rest

section

variable {step : List Char → Option (β × List Char)} {cs rest : List Char} {b : β}

/-- Behind a step that takes something, less is left. -/
lemma Advances.length_lt (h : Advances step) (hs : step cs = some (b, rest)) :
    rest.length < cs.length := by
  obtain ⟨taken, hne, rfl⟩ := h cs b rest hs
  have hpos := List.length_pos_iff.2 hne
  rw [List.length_append]
  omega

/-- If two steps take something, so does the one that tries both. -/
lemma Advances.or {other : List Char → Option (β × List Char)} (h : Advances step)
    (h' : Advances other) : Advances fun cs => (step cs).or (other cs) := by
  intro cs b rest hread
  rcases Option.or_eq_some_iff.1 hread with hread | ⟨-, hread⟩
  · exact h cs b rest hread
  · exact h' cs b rest hread

/-- What is made of its result does not change what a step takes. -/
lemma Advances.map {γ : Type} (h : Advances step) (f : β → γ) :
    Advances fun cs => (step cs).map fun (b, rest) => (f b, rest) := by
  intro cs c rest hread
  simp only [Option.map_eq_some_iff, Prod.mk.injEq] at hread
  obtain ⟨⟨b, _⟩, hread, rfl, rfl⟩ := hread
  exact h cs b _ hread

/-- Where the step does not apply, it is made no time. -/
lemma many_of_none (h : step cs = none) : many step cs = ([], cs) := by
  rw [many, h]

/-- Where the step applies, it is made once and then as often as it applies behind. -/
lemma many_of_some (ha : Advances step) (h : step cs = some (b, rest)) :
    many step cs = (b :: (many step rest).1, (many step rest).2) := by
  rw [many, h]
  exact if_pos (ha.length_lt h)

/-- What is left behind many steps is a part of what was ahead. -/
lemma many_suffix (ha : Advances step) (cs : List Char) : (many step cs).2 <:+ cs := by
  cases hs : step cs with
  | none => rw [many_of_none hs]
  | some result =>
    obtain ⟨b, rest⟩ := result
    have hlt := ha.length_lt hs
    obtain ⟨taken, -, rfl⟩ := ha cs b rest hs
    rw [many_of_some ha hs]
    exact (many_suffix ha rest).trans (List.suffix_append taken rest)
termination_by cs.length

/-- Steps over characters of some kind, one or more at a time, leave what is left once all of them
are dropped. -/
lemma many_eq_dropWhile {test : Char → Bool} (ha : Advances step)
    (hnone : ∀ cs, step cs = none ↔ ∀ c ∈ cs.head?, test c = false)
    (hsome : ∀ taken rest b, step (taken ++ rest) = some (b, rest) → ∀ c ∈ taken, test c)
    (cs : List Char) : (many step cs).2 = cs.dropWhile test := by
  cases hs : step cs with
  | none =>
    rw [many_of_none hs]
    have hhead := (hnone cs).1 hs
    cases cs with
    | nil => rfl
    | cons c cs => simp [hhead c rfl]
  | some result =>
    obtain ⟨b, rest⟩ := result
    have hlt := ha.length_lt hs
    obtain ⟨taken, -, rfl⟩ := ha cs b rest hs
    rw [many_of_some ha hs, List.dropWhile_append_of_pos (hsome taken rest b hs)]
    exact many_eq_dropWhile ha hnone hsome rest
termination_by cs.length

end

/-- A step over one character that satisfies a test. -/
def charStep (test : Char → Bool) (cs : List Char) : Option (Unit × List Char) :=
  (dropChar? test cs).map fun rest => ((), rest)

/-- One character is something. -/
lemma advances_charStep (test : Char → Bool) : Advances (charStep test) := by
  rintro (_ | ⟨c, cs⟩) b rest h
  · cases h
  · simp only [charStep, dropChar?] at h
    split at h
    · cases h
      exact ⟨[c], by simp, rfl⟩
    · cases h

/-- To take characters one after the other is to drop all in front that pass the test. -/
lemma many_charStep (test : Char → Bool) (cs : List Char) :
    (many (charStep test) cs).2 = cs.dropWhile test := by
  refine many_eq_dropWhile (advances_charStep test) (fun cs => ?_) (fun taken rest b h => ?_) cs
  · cases cs with
    | nil => simp [charStep, dropChar?]
    | cons c cs => cases h : test c <;> simp [charStep, dropChar?, h]
  · cases taken with
    | nil =>
      have hlt := (advances_charStep test).length_lt h
      simp at hlt
    | cons c taken =>
      simp only [charStep, dropChar?, List.cons_append] at h
      split at h
      · rename_i hc
        obtain rfl : taken = [] := by simpa using h
        simpa using hc
      · cases h

/-! ## Repetitions of a rule -/

/-- What a rule takes by a step, with a given scope. -/
def takenOf (value : β → Option (Value α)) (scope : Scope) :
    Option (β × List Char) → Outcome α (Taken α)
  | none => .unmatched
  | some (b, rest) => .matched ⟨⟨value b, rest⟩, scope⟩

/-- A repetition takes as many steps as there are, if its budget is large enough. -/
lemma takeTrips_eq_many {take : Scope → List Char → Outcome α (Taken α)}
    {step : List Char → Option (β × List Char)} {value : β → Option (Value α)} {scope : Scope}
    (ha : Advances step) (h : ∀ cs, take scope cs = takenOf value scope (step cs)) (least : Int) :
    ∀ (budget : Nat) (count : Int) (cs : List Char), cs.length < budget →
      takeTrips take least none budget count scope cs =
        .matched ⟨⟨(many step cs).1.map value, (many step cs).2, scope⟩,
          count + (many step cs).1.length⟩
  | budget + 1, count, cs, hb => by
    have hnone : ¬ ((none : Option Int).any fun most => decide (most ≤ count)) = true := by simp
    rw [takeTrips, if_neg hnone, h]
    cases hs : step cs with
    | none => simp [takenOf, many_of_none hs]
    | some result =>
      obtain ⟨b, rest⟩ := result
      have hlt := ha.length_lt hs
      rw [many_of_some ha hs]
      simp only [takenOf, if_neg (show ¬ rest.length = cs.length by omega)]
      rw [takeTrips_eq_many ha h least budget (count + 1) rest (by omega)]
      simp only [Outcome.map, Outcome.andThen, List.map_cons, List.length_cons]
      congr 2
      omega

namespace Rule

variable [DecidableEq ν] {g : Grammar ν α} {lines : List Char → Bool}
  {env : ν → List Char → Option (Piece α)} {rule : Rule ν α}
  {step : List Char → Option (β × List Char)} {value : β → Option (Value α)} {scope : Scope}

/-- A repetition takes as many steps as there are, and matches if they are not too few. -/
theorem take_repetition (ha : Advances step)
    (h : ∀ cs, rule.take g lines env scope cs = takenOf value scope (step cs)) (least : Int)
    (cs : List Char) :
    (Rule.repetition rule least none).take g lines env scope cs =
      if ((many step cs).1.length : Int) < least then .unmatched
      else
        match g.repetitionValue rule ((many step cs).1.map value) with
        | .error mistake => .stopped (.flaw (.badRule mistake))
        | .ok value => .matched ⟨⟨value, (many step cs).2⟩, scope⟩ := by
  rw [take, takeTrips_eq_many ha h least _ 0 cs (Nat.lt_succ_self _), Int.zero_add]
  rfl

/-- A repetition that may be empty and produces nothing passes over what it can. -/
lemma take_zeroOrMore (hp : g.produces rule = .ok false) (ha : Advances step)
    (h : ∀ cs, rule.take g lines env scope cs = takenOf value scope (step cs)) (cs : List Char) :
    (Rule.repetition rule 0 none).take g lines env scope cs =
      takeSilently scope (some (many step cs).2) := by
  rw [take_repetition ha h, if_neg (by omega)]
  simp only [Grammar.repetitionValue, hp]
  rfl

/-- A repetition that may not be empty and produces nothing passes over what it can, if there is
something. -/
lemma take_oneOrMore (hp : g.produces rule = .ok false) (ha : Advances step)
    (h : ∀ cs, rule.take g lines env scope cs = takenOf value scope (step cs)) (cs : List Char) :
    (Rule.repetition rule 1 none).take g lines env scope cs =
      takeSilently scope ((step cs).map fun _ => (many step cs).2) := by
  rw [take_repetition ha h]
  cases hs : step cs with
  | none =>
    rw [many_of_none hs]
    rfl
  | some result =>
    obtain ⟨b, rest⟩ := result
    rw [many_of_some ha hs, if_neg (by simp only [List.length_cons]; omega)]
    simp only [Grammar.repetitionValue, hp]
    rfl

end Rule

end Packrat
