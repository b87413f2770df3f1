import Packrat.Proofs.Parsing.Scopes
import Packrat.Proofs.Parsing.Termination
set_option autoImplicit false
set_option relaxedAutoImplicit false

/-!
# Repetitions and their unrolling

A repetition applies its rule over and over: each time where the time before has ended, in the scope
and the state that it has left. So it does what the rule does that many times in a row, as the parts
of a sequence.

A trip that takes nothing is the last one, and then counts for all the trips that are still missing.
This is right if the rule would go on to match nothing, and so it is unless the trip has bound
something that the rule refers back to. Otherwise the trips that it counts for might not match at
all.

## Main definitions

* `Packrat.Matcher.applyTimes` — a rule so many times in a row.
* `Packrat.Matcher.Idle` — a time that takes nothing.
* `Packrat.Matcher.Unrolls` — how a repetition ends, in terms of the rule in a row.

## Main results

* `Packrat.Matcher.Repeats.unrolls` — every repetition ends in one of these ways.
* `Packrat.Grammar.repetition_unrolls` — when a repetition matches, and what.
-/

namespace Packrat

variable {ν α : Type} [DecidableEq ν]

/-! ## Rules in a row -/

/-- Puts a value in front of those of a row. -/
def Row.cons (value : Option (Value α)) (row : Row α) : Row α :=
  { row with values := value :: row.values }

namespace Matcher

/-- Applies a rule so many times in a row. -/
def applyTimes (m : Matcher ν α) (rule : Rule ν α) (times : Nat) (position : Nat) (scope : Scope) :
    Action ν α (Row α) :=
  m.applyParts (List.replicate times rule) position scope

variable {m : Matcher ν α} {rule : Rule ν α} {position : Nat} {scope : Scope} {run after : Run ν α}

/-- Once more is the rule itself behind the row. -/
lemma applyTimes_succ (m : Matcher ν α) (rule : Rule ν α) (times position : Nat) (scope : Scope)
    (run : Run ν α) :
    m.applyTimes rule (times + 1) position scope run =
      Answer.andThen (m.applyTimes rule times position scope run) fun row run =>
      Answer.andThen (m rule row.stop row.scope run) fun last run =>
      (.matched ⟨row.values ++ [last.value], last.stop, last.scope⟩, run) := by
  rw [applyTimes, List.replicate_succ', applyParts_append]
  congr 1
  funext row run
  simp only [applyParts, Answer.andThen]
  rcases m rule row.stop row.scope run with ⟨_ | _ | _, _⟩ <;> rfl

/-- Behind a row that matches, once more ends as the rule itself does. -/
lemma applyTimes_succ_of_matched {times : Nat} {row : Row α}
    (h : m.applyTimes rule times position scope run = (.matched row, after)) :
    (m.applyTimes rule (times + 1) position scope run).1 =
      (m rule row.stop row.scope after).1.map fun last =>
        ⟨row.values ++ [last.value], last.stop, last.scope⟩ := by
  rw [applyTimes_succ, h]
  simp only [Answer.andThen]
  rcases m rule row.stop row.scope after with ⟨_ | _ | _, _⟩ <;> rfl

/-- If once more matches, then it ends with the rule itself behind the row. -/
lemma exists_last_of_applyTimes {times : Nat} {row next : Row α}
    (h : m.applyTimes rule times position scope run = (.matched row, after))
    (hnext : (m.applyTimes rule (times + 1) position scope run).1 = .matched next) :
    ∃ last, (m rule row.stop row.scope after).1 = .matched last ∧
      next = ⟨row.values ++ [last.value], last.stop, last.scope⟩ := by
  rw [applyTimes_succ_of_matched h] at hnext
  cases hlast : (m rule row.stop row.scope after).1 with
  | matched last =>
    rw [hlast] at hnext
    exact ⟨last, rfl, (Outcome.matched.inj hnext).symm⟩
  | unmatched | stopped _ =>
    rw [hlast] at hnext
    cases hnext

/-- Behind a first match, the others go on where it has ended. -/
lemma applyTimes_cons {first : Match α} (h : m rule position scope run = (.matched first, after))
    (times : Nat) :
    m.applyTimes rule (times + 1) position scope run =
      Answer.andThen (m.applyTimes rule times first.stop first.scope after) fun others run =>
      (.matched { others with values := first.value :: others.values }, run) := by
  rw [applyTimes, List.replicate_succ, applyParts, h]
  rfl

/-- A row that matches begins with all the shorter ones. -/
lemma exists_applyTimes_of_le {times longer : Nat} (hle : times ≤ longer) {row : Row α}
    (h : (m.applyTimes rule longer position scope run).1 = .matched row) :
    ∃ shorter after, m.applyTimes rule times position scope run = (.matched shorter, after) := by
  obtain ⟨more, rfl⟩ := Nat.exists_eq_add_of_le hle
  rw [applyTimes, ← List.replicate_append_replicate, applyParts_append] at h
  unfold applyTimes
  rcases hrow : m.applyParts (List.replicate times rule) position scope run with
      ⟨shorter | _ | _, after⟩
  · exact ⟨shorter, after, rfl⟩
  · simp [hrow, Answer.andThen] at h
  · simp [hrow, Answer.andThen] at h

/-- What stops a row stops the longer ones, too. -/
lemma applyTimes_stopped_of_le {times longer : Nat} (hle : times ≤ longer) {cause : Stop α}
    (h : (m.applyTimes rule times position scope run).1 = .stopped cause) :
    (m.applyTimes rule longer position scope run).1 = .stopped cause := by
  obtain ⟨more, rfl⟩ := Nat.exists_eq_add_of_le hle
  rw [applyTimes] at h
  rw [applyTimes, ← List.replicate_append_replicate, applyParts_append]
  rcases hrow : m.applyParts (List.replicate times rule) position scope run with
      ⟨_ | _ | _, after⟩ <;>
    rw [hrow] at h <;> cases h
  rfl

/-- Where a row does not match, no longer one does. -/
lemma applyTimes_ne_matched_of_le {times longer : Nat} (hle : times ≤ longer)
    (h : (m.applyTimes rule times position scope run).1 = .unmatched) (row : Row α) :
    (m.applyTimes rule longer position scope run).1 ≠ .matched row := by
  intro hmatched
  obtain ⟨shorter, after, hshorter⟩ := exists_applyTimes_of_le hle hmatched
  rw [hshorter] at h
  cases h

/-- After so many times, the next one matches and takes nothing. -/
structure Idle (m : Matcher ν α) (rule : Rule ν α) (times : Nat) (position : Nat) (scope : Scope)
    (run : Run ν α) (row next : Row α) : Prop where
  before : (m.applyTimes rule times position scope run).1 = .matched row
  after : (m.applyTimes rule (times + 1) position scope run).1 = .matched next
  stop : next.stop = row.stop

/-! ## How repetitions end -/

/-- A repetition ends with the answer, in one of the ways in which it can end after some trips that
all took something, when it has counted so many before.

* `ended` — there may be no more trips, or the next one does not match.
* `idle` — the next one takes nothing.
* `stopped` — the next one stops the parse. -/
inductive Unrolls (m : Matcher ν α) (rule : Rule ν α) (least : Int) (most : Option Int)
    (count : Int) (position : Nat) (scope : Scope) (run : Run ν α) : Answer ν α (Trips α) → Prop
  | ended {times : Nat} {trips : Trips α} {after : Run ν α}
      (hopen : ∀ k < times, (most.any fun most => decide (most ≤ count + k)) = false)
      (hbusy : ∀ k < times, ∀ row next, ¬ m.Idle rule k position scope run row next)
      (hrow : (m.applyTimes rule times position scope run).1 = .matched trips.toRow)
      (hcount : trips.count = count + times)
      (hend : (most.any fun most => decide (most ≤ count + times)) = true ∨
        (m.applyTimes rule (times + 1) position scope run).1 = .unmatched) :
      Unrolls m rule least most count position scope run (.matched trips, after)
  | idle {times : Nat} {row : Row α} {trips : Trips α} {after : Run ν α}
      (hopen : ∀ k < times + 1, (most.any fun most => decide (most ≤ count + k)) = false)
      (hidle : m.Idle rule times position scope run row trips.toRow)
      (hcount : trips.count = max (count + times + 1) least) :
      Unrolls m rule least most count position scope run (.matched trips, after)
  | stopped {cause : Stop α} {after : Run ν α} :
      Unrolls m rule least most count position scope run (.stopped cause, after)

section

variable {least : Int} {most : Option Int} {count : Int} {first : Match α}
  (h : m rule position scope run = (.matched first, after))

include h

/-- Behind a first match, a row of one time more is matched if the others are. -/
lemma applyTimes_succ_eq_matched_iff {times : Nat} {row : Row α} :
    (m.applyTimes rule (times + 1) position scope run).1 = .matched row ↔
      ∃ others, (m.applyTimes rule times first.stop first.scope after).1 = .matched others ∧
        row = others.cons first.value := by
  rw [applyTimes_cons h]
  rcases m.applyTimes rule times first.stop first.scope after with ⟨others | _ | _, _⟩ <;>
    simp [Answer.andThen, Row.cons, eq_comm]

/-- Behind a first match, a row of one time more is not matched if the others are not. -/
lemma applyTimes_succ_eq_unmatched_iff {times : Nat} :
    (m.applyTimes rule (times + 1) position scope run).1 = .unmatched ↔
      (m.applyTimes rule times first.stop first.scope after).1 = .unmatched := by
  rw [applyTimes_cons h]
  rcases m.applyTimes rule times first.stop first.scope after with ⟨others | _ | _, _⟩ <;>
    simp [Answer.andThen]

/-- The first time takes nothing if the rule matches and ends where it started. -/
lemma idle_zero (hstop : first.stop = position) :
    m.Idle rule 0 position scope run ⟨[], position, scope⟩
      ⟨[first.value], position, first.scope⟩ where
  before := rfl
  after := (applyTimes_succ_eq_matched_iff h).2 ⟨_, rfl, by rw [hstop]; rfl⟩
  stop := rfl

/-- Behind a first match, the others take nothing where they do so in the row that goes on there. -/
lemma idle_succ_iff {times : Nat} {row next : Row α} :
    m.Idle rule (times + 1) position scope run row next ↔
      ∃ row' next', m.Idle rule times first.stop first.scope after row' next' ∧
        row = row'.cons first.value ∧ next = next'.cons first.value := by
  constructor
  · rintro ⟨hbefore, hafter, hstop⟩
    obtain ⟨row', hbefore', rfl⟩ := (applyTimes_succ_eq_matched_iff h).1 hbefore
    obtain ⟨next', hafter', rfl⟩ := (applyTimes_succ_eq_matched_iff h).1 hafter
    exact ⟨row', next', ⟨hbefore', hafter', hstop⟩, rfl, rfl⟩
  · rintro ⟨row', next', ⟨hbefore, hafter, hstop⟩, rfl, rfl⟩
    exact ⟨(applyTimes_succ_eq_matched_iff h).2 ⟨row', hbefore, rfl⟩,
      (applyTimes_succ_eq_matched_iff h).2 ⟨next', hafter, rfl⟩, hstop⟩

/-- If a repetition that has made one trip more goes on to end in one of these ways, then it does so
with that trip. -/
lemma Unrolls.again (hopen : (most.any fun most => decide (most ≤ count)) = false)
    (hstop : first.stop ≠ position) {answer : Answer ν α (Trips α)}
    (hothers : m.Unrolls rule least most (count + 1) first.stop first.scope after answer) :
    m.Unrolls rule least most count position scope run
      (answer.andThen fun others run =>
        (.matched { others with values := first.value :: others.values }, run)) := by
  have hopens : ∀ {times : Nat},
      (∀ k < times, (most.any fun most => decide (most ≤ count + 1 + (k : Int))) = false) →
      ∀ k < times + 1, (most.any fun most => decide (most ≤ count + (k : Int))) = false := by
    intro times hothers k hk
    cases k with
    | zero => simpa using hopen
    | succ k =>
      have hk := hothers k (by omega)
      rwa [show count + ((k + 1 : Nat) : Int) = count + 1 + k by omega]
  cases hothers with
  | stopped => exact .stopped
  | @ended times trips _ hopen' hbusy hrow hcount hend =>
    refine .ended (hopens hopen') (fun k hk row next hidle => ?_)
      ((applyTimes_succ_eq_matched_iff h).2 ⟨_, hrow, rfl⟩) ?_ ?_
    · cases k with
      | zero =>
        obtain ⟨hbefore, hafter, heq⟩ := hidle
        obtain ⟨others, hothers, rfl⟩ := (applyTimes_succ_eq_matched_iff h).1 hafter
        cases hbefore
        cases hothers
        exact hstop heq
      | succ k =>
        obtain ⟨row', next', hidle', -, -⟩ := (idle_succ_iff h).1 hidle
        exact hbusy k (by omega) row' next' hidle'
    · simp only [hcount]
      omega
    · refine hend.imp (fun hfull => ?_) (applyTimes_succ_eq_unmatched_iff h).2
      rwa [show count + ((times + 1 : Nat) : Int) = count + 1 + times by omega]
  | @idle times row trips _ hopen' hidle hcount =>
    refine .idle (hopens hopen') ((idle_succ_iff h).2 ⟨row, _, hidle, rfl, rfl⟩) ?_
    simp only [hcount]
    omega

end

/-- A repetition ends as the rule in a row does.

**Proof sketch.** Induction on the trips. A trip that takes something comes in front of a row that
goes on where it has ended. -/
theorem Repeats.unrolls {least : Int} {most : Option Int} {trips : Nat} {count : Int}
    {answer : Answer ν α (Trips α)}
    (h : m.Repeats rule least most trips count position scope run answer) :
    m.Unrolls rule least most count position scope run answer := by
  induction h with
  | full hfull =>
    exact .ended (fun k hk => absurd hk (Nat.not_lt_zero k))
      (fun k hk => absurd hk (Nat.not_lt_zero k))
      rfl (Int.add_zero _).symm (.inl (by simpa using hfull))
  | unmatched hopen h =>
    refine .ended (fun k hk => absurd hk (Nat.not_lt_zero k))
      (fun k hk => absurd hk (Nat.not_lt_zero k)) rfl (Int.add_zero _).symm (.inr ?_)
    simp [applyTimes, applyParts, Answer.andThen, h]
  | stopped hopen h => exact .stopped
  | idle hopen h hstop =>
    refine .idle (fun k hk => ?_) (idle_zero h hstop) (by simp)
    obtain rfl : k = 0 := by omega
    simpa using hopen
  | again hopen h hstop hothers ih => exact .again h hopen hstop ih

/-! ## Trips that may be made -/

section

variable {least : Nat} {most : Option Nat} {trips : Trips α}
  (h : m.Unrolls rule least (most.map Int.ofNat) 0 position scope run (.matched trips, after))

/-- When the trips that may be made are used up. -/
lemma most_any_iff (most : Option Nat) (count : Nat) :
    ((most.map Int.ofNat).any fun most => decide (most ≤ 0 + (count : Int))) = true ↔
      ∃ bound ∈ most, bound ≤ count := by
  cases most <;> simp

/-- As long as they are not, another one may be made. -/
lemma lt_of_most_any {count : Nat}
    (h : ((most.map Int.ofNat).any fun most => decide (most ≤ 0 + (count : Int))) = false) :
    ∀ bound ∈ most, count < bound := fun bound hbound =>
  Nat.lt_of_not_le fun hle =>
    absurd ((most_any_iff most count).2 ⟨bound, hbound, hle⟩) (by rw [h]; nofun)

include h

/-- A repetition makes enough trips just if its rule matches so many times in a row, or takes
nothing at one of them. -/
lemma Unrolls.least_le_count_iff (hbounds : ∀ bound ∈ most, least ≤ bound) :
    (least : Int) ≤ trips.count ↔
      (∃ row, (m.applyTimes rule least position scope run).1 = .matched row) ∨
        ∃ times < least, ∃ row next, m.Idle rule times position scope run row next := by
  cases h with
  | @ended times _ _ hopen hbusy hrow hcount hend =>
    constructor
    · intro hle
      obtain ⟨row, _, hleast⟩ := exists_applyTimes_of_le (by omega : least ≤ times) hrow
      exact .inl ⟨row, by rw [hleast]⟩
    · intro hmatches
      by_contra hlt
      -- There are too few trips, so it was not for their number that the repetition ended.
      have hunmatched := hend.resolve_left fun hfull => by
        obtain ⟨bound, hbound, hle⟩ := (most_any_iff most times).1 hfull
        have hleast := hbounds bound hbound
        omega
      rcases hmatches with ⟨row, hrow⟩ | ⟨idle, hidle, row, next, hnext⟩
      · exact applyTimes_ne_matched_of_le (by omega) hunmatched row hrow
      · by_cases hbefore : idle < times
        · exact hbusy idle hbefore row next hnext
        · exact applyTimes_ne_matched_of_le (by omega) hunmatched next hnext.after
  | @idle times row _ _ hopen hidle hcount =>
    refine ⟨fun _ => ?_, fun _ => by omega⟩
    by_cases hle : least ≤ times + 1
    · obtain ⟨row, _, hleast⟩ := exists_applyTimes_of_le hle hidle.after
      exact .inl ⟨row, by rw [hleast]⟩
    · exact .inr ⟨times, by omega, row, _, hidle⟩

/-- If the rule always takes something, then a repetition makes the trips of the longest row that is
allowed. -/
lemma Unrolls.exists_longest
    (hbusy : ∀ times, (∀ bound ∈ most, times < bound) → ∀ row next,
      ¬ m.Idle rule times position scope run row next) :
    ∃ times, (∀ bound ∈ most, times ≤ bound) ∧
      (m.applyTimes rule times position scope run).1 = .matched trips.toRow ∧
      ∀ longer > times, (∀ bound ∈ most, longer ≤ bound) → ∀ row,
        (m.applyTimes rule longer position scope run).1 ≠ .matched row := by
  cases h with
  | @ended times _ _ hopen _ hrow hcount hend =>
    refine ⟨times, fun bound hbound => ?_, hrow, fun longer hlonger hallowed row hmatched => ?_⟩
    · cases times with
      | zero => exact Nat.zero_le _
      | succ times => exact lt_of_most_any (hopen times (Nat.lt_succ_self _)) bound hbound
    · rcases hend with hfull | hunmatched
      · obtain ⟨bound, hbound, hle⟩ := (most_any_iff most times).1 hfull
        have hlonger' := hallowed bound hbound
        omega
      · exact applyTimes_ne_matched_of_le hlonger hunmatched row hmatched
  | @idle times row _ _ hopen hidle hcount =>
    exact absurd hidle (hbusy times (lt_of_most_any (hopen times (Nat.lt_succ_self _))) row _)

end

end Matcher

/-! ## Repetitions -/

namespace Grammar

variable {g : Grammar ν α} {text : Text} {limit : Nat} {rule : Rule ν α} {position : Nat}
    {scope : Scope}
  {run : Run ν α}

/-- From a sound state, a rule in a row leaves a sound state. -/
lemma sound_applyTimes (hrun : run.Sound g text) (times : Nat) :
    ((g.apply text limit).applyTimes rule times position scope run).2.Sound g text :=
  ((compositional_lawful.applyParts (lawful_apply limit) (List.replicate times rule) position
    scope).faithful run hrun).sound

/-- The state behind a row that matches is sound. -/
lemma exists_sound_of_applyTimes (hrun : run.Sound g text) {times : Nat} {row : Row α}
    (h : ((g.apply text limit).applyTimes rule times position scope run).1 = .matched row) :
    ∃ after, (g.apply text limit).applyTimes rule times position scope run = (.matched row, after) ∧
      after.Sound g text :=
  ⟨_, Prod.ext h rfl, sound_applyTimes hrun times⟩

/-- Once a time has taken nothing, and has left bound to the names that the rule refers back to what
was bound to them before, all the times behind it match and take nothing, too, unless they stop the
parse.

**Proof sketch.** Induction on the number of times. What the rule means where it took nothing does
not depend on the state, and is the same in every scope that agrees on those names. -/
lemma exists_applyTimes_of_idle (hrun : run.Sound g text) {times longer : Nat} {row next : Row α}
    (hidle : (g.apply text limit).Idle rule times position scope run row next)
    (hagree : row.scope.Agree rule.refers next.scope) (hle : times + 1 ≤ longer)
    (hends : ∀ cause,
      ((g.apply text limit).applyTimes rule longer position scope run).1 ≠ .stopped cause) :
    ∃ last, ((g.apply text limit).applyTimes rule longer position scope run).1 = .matched last ∧
      last.stop = row.stop ∧ row.scope.Agree rule.refers last.scope := by
  obtain ⟨hbefore, hafter, hstop⟩ := hidle
  obtain ⟨after, hrow, hsound⟩ := exists_sound_of_applyTimes hrun hbefore
  -- What the rule means where it took nothing.
  obtain ⟨own, hown, rfl⟩ := Matcher.exists_last_of_applyTimes hrow hafter
  have hmeans := yields_apply hsound (by rw [hown]; nofun)
  rw [hown] at hmeans
  induction longer, hle using Nat.le_induction with
  | base => exact ⟨_, hafter, hstop, hagree⟩
  | succ longer hle ih =>
    obtain ⟨last, hlast, hplace, hsame⟩ := ih fun cause hcause =>
      hends cause (Matcher.applyTimes_stopped_of_le (Nat.le_succ longer) hcause)
    obtain ⟨far, hfar, hfarSound⟩ := exists_sound_of_applyTimes hrun hlast
    rw [Matcher.applyTimes_succ_of_matched hfar] at hends ⊢
    obtain ⟨outcome, hyields, hrelated⟩ := hmeans.akin hsame
    rw [← hplace] at hyields
    have hne : (g.apply text limit rule last.stop last.scope far).1 ≠ .stopped .tooDeep :=
      fun hdeep => hends .tooDeep (by rw [hdeep]; rfl)
    rw [(yields_apply hfarSound hne).unique hyields]
    cases hrelated with
    | matched hown' =>
      obtain ⟨scope', hscope', rfl⟩ := hown'
      exact ⟨_, rfl, hstop, hagree.trans hscope'⟩

/-- A rule that is known to take a character does so every time. -/
lemma not_idle_of_advances {known : ν → Bool} (hknown : g.Advancing known)
    (hrule : rule.advances known = true) (hrun : run.Sound g text) {times : Nat}
    {row next : Row α} :
    ¬ (g.apply text limit).Idle rule times position scope run row next := by
  rintro ⟨hbefore, hafter, hstop⟩
  obtain ⟨after, hrow, hsound⟩ := exists_sound_of_applyTimes hrun hbefore
  obtain ⟨own, hown, rfl⟩ := Matcher.exists_last_of_applyTimes hrow hafter
  exact absurd hstop (Nat.ne_of_gt ((stretch_of_matched hknown hrule hsound hown).start_lt rfl))

/-- A repetition that does not stop the parse makes its trips as the rule in a row does. It matches
if these are enough, and then ends where the last one has ended. -/
lemma exists_trips {least : Int} {most : Option Int} (hrun : run.Sound g text)
    (hends : ∀ cause,
      (g.apply text (limit + 1) (.repetition rule least most) position scope run).1 ≠
      .stopped cause) :
    ∃ trips after,
      (g.apply text limit).Unrolls rule least most 0 position scope run (.matched trips, after) ∧
      ((∃ result, (g.apply text (limit + 1) (.repetition rule least most) position scope run).1 =
        .matched result) ↔ least ≤ trips.count) ∧
      ∀ result, (g.apply text (limit + 1) (.repetition rule least most) position scope run).1 =
          .matched result →
        ∃ producing, g.produces rule = .ok producing ∧
          result = ⟨⟨trips.stop, if producing then some (.items (spliceValues trips.values))
            else none⟩, trips.scope⟩ := by
  obtain ⟨made, -, hrepeats⟩ :=
    repeats_applyTrips limit rule least most (text.size - position + 1) 0 position scope run
      (Nat.lt_succ_self _) hrun
  have hunrolls := hrepeats.unrolls
  rw [apply_repetition] at hends ⊢
  rcases htrips : (g.apply text limit).applyTrips rule least most (text.size - position + 1) 0
    position scope run with ⟨trips | _ | cause, after⟩ <;> rw [htrips] at hunrolls hends
  · refine ⟨trips, after, hunrolls, ?_⟩
    simp only [Answer.andThen] at hends ⊢
    by_cases hcount : trips.count < least
    · simp only [hcount, if_true]
      exact ⟨iff_of_false (by simp) (Int.not_le.2 hcount), by simp⟩
    · simp only [hcount, if_false] at hends ⊢
      cases hvalue : g.repetitionValue rule trips.values with
      | error mistake => simp [hvalue] at hends
      | ok value =>
        refine ⟨⟨fun _ => Int.not_lt.1 hcount, fun _ => ⟨_, rfl⟩⟩, ?_⟩
        rintro _ ⟨⟩
        obtain ⟨producing, hproduces, rfl⟩ := g.repetitionValue_eq_ok_iff.1 hvalue
        exact ⟨producing, hproduces, rfl⟩
  · cases hunrolls
  · exact absurd rfl (hends cause)

variable (limit rule position scope) in
/-- A repetition and its unrolling, if nothing stops the parse.

* It matches just if its rule matches the least number of times in a row, or takes nothing at one of
  these times.
* If whatever takes nothing at these times leaves bound what the rule refers back to, then the
  repetition matches just if its rule matches the least number of times in a row.
* If the rule takes something every time, then the repetition ends where the longest row ends that
  is allowed, with what that has left bound. Its value is the list of all that the row has produced,
  if the rule can produce values.

**Proof sketch.** The trips of the repetition are the rule in a row, up to the first time that takes
nothing or does not match. A row of more times than there are trips begins with the time that ended
the repetition. -/
theorem repetition_unrolls (least : Nat) (most : Option Nat)
    (hbounds : ∀ bound ∈ most, least ≤ bound) (hrun : run.Sound g text)
    (hends : ∀ cause,
      (g.apply text (limit + 1) (.repetition rule least (most.map Int.ofNat)) position scope
        run).1 ≠ .stopped cause) :
    ((∃ result,
        (g.apply text (limit + 1) (.repetition rule least (most.map Int.ofNat)) position scope
          run).1 = .matched result) ↔
      (∃ row, ((g.apply text limit).applyTimes rule least position scope run).1 = .matched row) ∨
        ∃ times < least, ∃ row next,
          (g.apply text limit).Idle rule times position scope run row next) ∧
    ((∀ cause, ((g.apply text limit).applyTimes rule least position scope run).1 ≠ .stopped cause) →
      (∀ times < least, ∀ row next,
        (g.apply text limit).Idle rule times position scope run row next →
        row.scope.Agree rule.refers next.scope) →
      ((∃ result,
          (g.apply text (limit + 1) (.repetition rule least (most.map Int.ofNat)) position scope
            run).1 = .matched result) ↔
        ∃ row, ((g.apply text limit).applyTimes rule least position scope run).1 = .matched row)) ∧
    ((∀ times, (∀ bound ∈ most, times < bound) → ∀ row next,
        ¬ (g.apply text limit).Idle rule times position scope run row next) →
      ∀ result,
        (g.apply text (limit + 1) (.repetition rule least (most.map Int.ofNat)) position scope
          run).1 = .matched result →
        ∃ times row, (∀ bound ∈ most, times ≤ bound) ∧
          ((g.apply text limit).applyTimes rule times position scope run).1 = .matched row ∧
          (∀ longer > times, (∀ bound ∈ most, longer ≤ bound) → ∀ row,
            ((g.apply text limit).applyTimes rule longer position scope run).1 ≠ .matched row) ∧
          ∃ producing, g.produces rule = .ok producing ∧
            result = ⟨⟨row.stop, if producing then some (.items (spliceValues row.values))
              else none⟩, row.scope⟩) := by
  obtain ⟨trips, after, hunrolls, hmatches, hresult⟩ := exists_trips hrun hends
  have hiff := hmatches.trans (hunrolls.least_le_count_iff hbounds)
  refine ⟨hiff, fun hleast hagree => hiff.trans ⟨?_, .inl⟩, fun hbusy result hmatched => ?_⟩
  · rintro (hrow | ⟨times, htimes, row, next, hidle⟩)
    · exact hrow
    · obtain ⟨last, hlast, -, -⟩ := exists_applyTimes_of_idle hrun hidle
        (hagree times htimes row next hidle) htimes hleast
      exact ⟨last, hlast⟩
  · obtain ⟨times, hallowed, hrow, hlongest⟩ := hunrolls.exists_longest hbusy
    exact ⟨times, trips.toRow, hallowed, hrow, hlongest, hresult result hmatched⟩

end Grammar

namespace Program

/-- A rule that takes one letter and calls it a letter. -/
def letter : Pattern := .capture "letter" (.literal "a")

/-- One letter or two, in a text that begins with three of them. -/
theorem repetition_unrolls_letters :
    (Run.fresh true false).Sound grammar (.ofString "aaab") ∧
      (grammar.apply (.ofString "aaab") 5 (.repetition letter 1 (some 2)) 0 []
        (.fresh true false)).1 =
        .matched ⟨⟨2,
          some (.items [.fields [("letter", .text "a")], .fields [("letter", .text "a")]])⟩, []⟩ ∧
      (∃ row, ((grammar.apply (.ofString "aaab") 4).applyTimes letter 1 0 []
        (.fresh true false)).1 =
        .matched row) ∧
      ∃ times row,
        ((grammar.apply (.ofString "aaab") 4).applyTimes letter times 0 [] (.fresh true false)).1 =
          .matched row ∧
        (∀ longer > times, longer ≤ 2 → ∀ row,
          ((grammar.apply (.ofString "aaab") 4).applyTimes letter longer 0 []
            (.fresh true false)).1 ≠ .matched row) ∧ row.stop = 2 := by
  have hsound : (Run.fresh true false).Sound grammar (.ofString "aaab") :=
    Run.sound_fresh true false
  have hmatched :
      (grammar.apply (.ofString "aaab") 5 (.repetition letter 1 (some 2)) 0 []
        (.fresh true false)).1 = .matched ⟨⟨2, some (.items [.fields [("letter", .text "a")],
          .fields [("letter", .text "a")]])⟩, []⟩ := rfl
  have honce :
      ((grammar.apply (.ofString "aaab") 4).applyTimes letter 1 0 [] (.fresh true false)).1 =
      .matched ⟨[some (.fields [("letter", .text "a")])], 1, []⟩ := rfl
  have hbusy : ∀ times row next, ¬ (grammar.apply (.ofString "aaab") 4).Idle letter times 0 []
      (.fresh true false) row next := fun _ _ _ =>
    Grammar.not_idle_of_advances (show grammar.Advancing fun _ => false from nofun) rfl hsound
  obtain ⟨-, hleast, hlongest⟩ :=
    Grammar.repetition_unrolls 4 letter 0 [] 1 (some 2) (by simp) hsound
    (fun cause h => nomatch hmatched.symm.trans h)
  have hrow := (hleast (fun cause h => nomatch honce.symm.trans h)
    fun times _ row next hidle => absurd hidle (hbusy times row next)).1 ⟨_, hmatched⟩
  obtain ⟨times, row, -, hrow', hlonger, producing, -, hresult⟩ :=
    hlongest (fun times _ => hbusy times) _ hmatched
  refine ⟨hsound, hmatched, hrow, times, row, hrow',
    fun longer hlt hle => hlonger longer hlt (by simpa using hle), ?_⟩
  simp only [Match.mk.injEq, Ending.mk.injEq] at hresult
  exact hresult.1.1.symm

/-- A rule that must not find the text that is bound to a name, and then binds the empty text to
it. -/
def rebinding : Pattern :=
  .sequence [.lookahead true (.backref "x"), .bind "x" (.literal "")]

/-- It does so once and, as the empty text is everywhere, not twice; but a repetition of it takes
the second time for granted. -/
theorem repetition_of_rebinding :
    (grammar.apply (.ofString "b") 5 (.repetition rebinding 2 none) 0 [("x", "a")]
        (.fresh true false)).1 = .matched ⟨⟨0, none⟩, [("x", ""), ("x", "a")]⟩ ∧
      ((grammar.apply (.ofString "b") 4).applyTimes rebinding 2 0 [("x", "a")]
        (.fresh true false)).1 =
        .unmatched := ⟨rfl, rfl⟩

end Program

end Packrat
