import Packrat.Program.Grammar
import Packrat.Proofs.Matching.Limit
import Packrat.Proofs.Matching.Plain
import Packrat.Proofs.Value.Grouping
set_option autoImplicit false
set_option relaxedAutoImplicit false

/-!
# Sequences inside sequences

A sequence inside a sequence applies its parts where the sequence around it would apply them itself,
and merges what they produce first. So nothing changes when its parts take its place, as they do in
the functions that grammars are written with. Only if a single part is left do these functions give
the part itself, which is not a sequence any more: an empty group of fields, which a sequence loses,
is then kept.

## Main definitions

* `Packrat.Answer.Regrouped` — the same row, but for values that are grouped in another way.

## Main results

* `Packrat.Grammar.apply_flatMap_sequents` — the parts of inner sequences can take their places.
* `Packrat.Grammar.sequence_regroups` — values and sequences in groups.
-/

namespace Packrat

variable {ν α : Type} [DecidableEq ν]

/-! ## Rows -/

/-- The second answer is the first one, but for values that are grouped in another way and merge to
the same. Of a first answer that stops the parse nothing is said. -/
inductive Answer.Regrouped : Answer ν α (Row α) → Answer ν α (Row α) → Prop
  | matched {row : Row α} {values : List (Option (Value α))} {after : Run ν α}
      (h : MergesAs row.values values) :
      Regrouped (.matched row, after) (.matched { row with values }, after)
  | unmatched {after : Run ν α} : Regrouped (.unmatched, after) (.unmatched, after)
  | stopped {cause : Stop α} {after : Run ν α} {b : Answer ν α (Row α)} :
      Regrouped (.stopped cause, after) b

namespace Answer.Regrouped

/-- An answer with the same values is regrouped from itself. -/
lemma refl (a : Answer ν α (Row α)) : a.Regrouped a := by
  rcases a with ⟨row | _ | cause, after⟩
  · exact .matched (.refl _)
  · exact .unmatched
  · exact .stopped

/-- Rows behind rows: what comes behind depends on where the first row has ended, not on its
values. -/
lemma append {a b : Answer ν α (Row α)} {next other : Nat → Scope → Run ν α → Answer ν α (Row α)}
    (h : a.Regrouped b)
    (hn : ∀ stop scope run, (next stop scope run).Regrouped (other stop scope run)) :
    Regrouped
      (a.andThen fun row run => Answer.andThen (next row.stop row.scope run) fun others run =>
        (.matched { others with values := row.values ++ others.values }, run))
      (b.andThen fun row run => Answer.andThen (other row.stop row.scope run) fun others run =>
        (.matched { others with values := row.values ++ others.values }, run)) := by
  cases h with
  | @matched row values after hvalues =>
    simp only [Answer.andThen]
    have hnext := hn row.stop row.scope after
    generalize next row.stop row.scope after = first at hnext
    generalize other row.stop row.scope after = second at hnext
    cases hnext with
    | @matched others _ _ hothers =>
      exact .matched (hvalues.append hothers)
    | unmatched => exact .unmatched
    | stopped => exact .stopped
  | unmatched => exact .unmatched
  | stopped => exact .stopped

end Answer.Regrouped

namespace Grammar

variable {g : Grammar ν α} {text : Text} {limit position : Nat} {scope : Scope} {run : Run ν α}

/-- A part of a sequence, and its own parts in its place if it is a sequence itself. -/
lemma regrouped_sequents (rule : Rule ν α) (position : Nat) (scope : Scope) (run : Run ν α) :
    Answer.Regrouped ((g.apply text limit).applyParts [rule] position scope run)
      ((g.apply text limit).applyParts rule.sequents position scope run) := by
  by_cases hrule : ∃ rules, rule = .sequence rules
  · obtain ⟨rules, rfl⟩ := hrule
    rw [Matcher.applyParts]
    cases limit with
    | zero => exact .stopped
    | succ limit =>
      rw [apply_sequence]
      simp only [Rule.sequents]
      have hsucc := (g.apply_extendedBy_succ text limit).applyParts rules position scope run
      rcases hrow : (g.apply text limit).applyParts rules position scope run with
        ⟨row | _ | cause, after⟩ <;> rw [hrow] at hsucc
      · rw [hsucc (by simp)]
        simp only [Answer.andThen]
        cases hmerge : mergeValues row.values with
        | error mixture => exact .stopped
        | ok value => exact .matched (mergeValues_group hmerge)
      · rw [hsucc (by simp)]
        exact .unmatched
      · exact .stopped
  · have hself : rule.sequents = [rule] := by
      cases rule with
      | sequence rules => exact absurd ⟨rules, rfl⟩ hrule
      | _ => rfl
    rw [hself]
    exact .refl _

/-- A row of rules, and the row in which the parts of sequences take the places of these.

**Proof sketch.** Induction on the rules. The first rule is a row of its own, in front of the
others. -/
lemma regrouped_flatMap_sequents :
    ∀ (rules : List (Rule ν α)) (position : Nat) (scope : Scope) (run : Run ν α),
      Answer.Regrouped ((g.apply text limit).applyParts rules position scope run)
        ((g.apply text limit).applyParts (rules.flatMap Rule.sequents) position scope run)
  | [], _, _, _ => .refl _
  | rule :: rules, position, scope, run => by
    rw [← List.singleton_append, List.flatMap_append, List.flatMap_singleton,
      Matcher.applyParts_append, Matcher.applyParts_append]
    exact (regrouped_sequents rule position scope run).append (regrouped_flatMap_sequents rules)

/-- Sequences inside a sequence can be opened: if the sequence around them does not stop the parse,
it answers the same when their parts take their places, state included. -/
theorem apply_flatMap_sequents {rules : List (Rule ν α)}
    (h : ∀ cause, (g.apply text limit (.sequence rules) position scope run).1 ≠ .stopped cause) :
    g.apply text limit (.sequence (rules.flatMap Rule.sequents)) position scope run =
      g.apply text limit (.sequence rules) position scope run := by
  cases limit with
  | zero => exact absurd rfl (h .tooDeep)
  | succ limit =>
    rw [apply_sequence] at h ⊢
    rw [apply_sequence]
    have hrows : Answer.Regrouped ((g.apply text limit).applyParts rules position scope run) _ :=
      regrouped_flatMap_sequents rules position scope run
    generalize (g.apply text limit).applyParts rules position scope run = row at h hrows ⊢
    generalize (g.apply text limit).applyParts (rules.flatMap Rule.sequents) position scope
      run = flat at hrows ⊢
    cases hrows with
    | matched hvalues => simp only [Answer.andThen, hvalues.mergeValues_eq]
    | unmatched => rfl
    | stopped => exact absurd rfl (h _)

/-- What is written as a single part of a sequence is that part. It does what a sequence of it does
if that does not stop the parse, but an empty group of fields is no value of the sequence. -/
lemma apply_single {rule : Rule ν α}
    (h : ∀ cause, (g.apply text limit (.sequence [rule]) position scope run).1 ≠ .stopped cause)
    (hfields : ∀ result fields, (g.apply text limit rule position scope run).1 = .matched result →
      result.value = some (.fields fields) → (fields.map Prod.fst).Nodup) :
    g.apply text limit rule position scope run =
      g.apply text limit (.sequence [rule]) position scope run ∨
      ∃ stop scope' after,
        g.apply text limit rule position scope run =
          (.matched ⟨⟨stop, some (.fields [])⟩, scope'⟩, after) ∧
        g.apply text limit (.sequence [rule]) position scope run =
          (.matched ⟨⟨stop, none⟩, scope'⟩, after) := by
  cases limit with
  | zero => exact absurd rfl (h .tooDeep)
  | succ limit =>
    have hsucc := g.apply_extendedBy_succ text limit rule position scope run
    rw [apply_sequence, Matcher.applyParts] at h ⊢
    rcases hrule : g.apply text limit rule position scope run with
      ⟨⟨⟨stop, value⟩, scope'⟩ | _ | cause, after⟩ <;> rw [hrule] at hsucc h
    · rw [hsucc (by simp)] at hfields ⊢
      simp only [Answer.andThen, Matcher.applyParts] at h ⊢
      rcases mergeValues_singleton (hfields _ · rfl) with hsame | ⟨rfl, hlost⟩
      · left
        simp only [hsame]
      · right
        simp only [hlost]
        exact ⟨stop, scope', after, rfl, rfl⟩
    · rw [hsucc (by simp)]
      exact .inl rfl
    · exact absurd rfl (h cause)

variable (g text) in
/-- Values and rules can be grouped in sequences in any way.

* Values that can be merged may be merged before the values around them; others cannot be merged
  with values around them, either.
* If a sequence does not stop the parse, then the parts of the sequences inside it may stand in it
  directly: the answer is the same, state included.
* Where a single part is left, this is written as the part itself. The answer is still the same, but
  if the part produces an empty group of fields then the sequence produces nothing. That the fields
  of a group have different names is what makes it a group. -/
theorem sequence_regroups :
    (∀ xs ys zs : List (Option (Value α)),
      (∀ value, mergeValues ys = .ok value →
        mergeValues (xs ++ [value] ++ zs) = mergeValues (xs ++ ys ++ zs)) ∧
      ∀ mixture, mergeValues ys = .error mixture →
        ∃ other, mergeValues (xs ++ ys ++ zs) = .error other) ∧
    ∀ (rules : List (Rule ν α)) (limit position : Nat) (scope : Scope) (run : Run ν α),
      (∀ cause, (g.apply text limit (.sequence rules) position scope run).1 ≠ .stopped cause) →
      g.apply text limit (.sequence (rules.flatMap Rule.sequents)) position scope run =
        g.apply text limit (.sequence rules) position scope run ∧
      ((∀ result fields, (g.apply text limit (Rule.seq rules) position scope run).1 =
        .matched result →
          result.value = some (.fields fields) → (fields.map Prod.fst).Nodup) →
        g.apply text limit (Rule.seq rules) position scope run =
            g.apply text limit (.sequence rules) position scope run ∨
          ∃ rule, rules.flatMap Rule.sequents = [rule] ∧ ∃ stop scope' after,
            g.apply text limit (Rule.seq rules) position scope run =
              (.matched ⟨⟨stop, some (.fields [])⟩, scope'⟩, after) ∧
            g.apply text limit (.sequence rules) position scope run =
              (.matched ⟨⟨stop, none⟩, scope'⟩, after)) := by
  refine ⟨fun xs ys zs => ⟨fun value h => mergeValues_group h xs zs,
    fun mixture h => exists_mixture_of_group h xs zs⟩, fun rules limit position scope run h => ?_⟩
  have hflat := apply_flatMap_sequents h
  refine ⟨hflat, fun hfields => ?_⟩
  rw [← hflat] at h ⊢
  by_cases hsingle : ∃ rule, rules.flatMap Rule.sequents = [rule]
  · obtain ⟨rule, hrule⟩ := hsingle
    have hseq : Rule.seq rules = rule := by simp only [Rule.seq, hrule]
    rw [hseq] at hfields ⊢
    rw [hrule] at h ⊢
    exact (apply_single h hfields).imp_right fun hlost => ⟨rule, rfl, hlost⟩
  · left
    rw [Rule.seq.eq_def]
    split
    · exact absurd ⟨_, ‹_›⟩ hsingle
    · rfl

end Grammar

namespace Program

/-- A name for one letter beside a name for the next, where the second is a sequence of its own. -/
theorem sequence_regroups_letters :
    let rules : List Pattern :=
      [.capture "a" (.literal "x"), .sequence [.capture "b" (.literal "y")]]
    let fields : Value Node := .fields [("a", .text "x"), ("b", .text "y")]
    mergeValues [some fields] = .ok (some fields) ∧
      Rule.seq rules = .sequence [.capture "a" (.literal "x"), .capture "b" (.literal "y")] ∧
      (grammar.apply (.ofString "xy") 5 (.sequence rules) 0 [] (.fresh true false)).1 =
        .matched ⟨⟨2, some fields⟩, []⟩ ∧
      (grammar.apply (.ofString "xy") 5 (Rule.seq rules) 0 [] (.fresh true false)).1 =
        .matched ⟨⟨2, some fields⟩, []⟩ := by
  intro rules fields
  have hmatched : (grammar.apply (.ofString "xy") 5 (.sequence rules) 0 [] (.fresh true false)).1 =
      .matched ⟨⟨2, some fields⟩, []⟩ := rfl
  have hflat : (grammar.apply (.ofString "xy") 5 (Rule.seq rules) 0 [] (.fresh true false)).1 =
      .matched ⟨⟨2, some fields⟩, []⟩ := rfl
  obtain ⟨hvalues, hrules⟩ := Grammar.sequence_regroups grammar (.ofString "xy")
  have hfields :
      mergeValues [some (.fields [("a", .text "x")]), some (.fields [("b", .text "y")])] =
      .ok (some fields) := rfl
  have hgroup := (hvalues [] _ []).1 _ hfields
  have hrule :=
    (hrules rules 5 0 [] (.fresh true false) (fun _ h => nomatch hmatched.symm.trans h)).2 (by
    rintro result names hresult hvalue
    cases hflat.symm.trans hresult
    obtain rfl : [("a", .text "x"), ("b", .text "y")] = names := by simpa [fields] using hvalue
    decide)
  refine ⟨hgroup.trans hfields, rfl, hmatched, ?_⟩
  rcases hrule with hsame | ⟨rule, hrule, -⟩
  · rw [hsame]
    exact hmatched
  · cases hrule

/-- A sequence of nothing in front of a rule that produces an empty group of fields: written as one
sequence it is that rule and has this value, but a sequence of the two has none. -/
theorem sequence_loses_empty_fields :
    ¬ ∀ (rules : List Pattern) (limit position : Nat) (scope : Scope) (run : Run Phrase Node),
      (∀ cause, (grammar.apply (.ofString "a") limit (.sequence rules) position scope run).1 ≠
        .stopped cause) →
      (∀ cause, (grammar.apply (.ofString "a") limit (Rule.seq rules) position scope run).1 ≠
        .stopped cause) →
      (grammar.apply (.ofString "a") limit (.sequence rules) position scope run).1 =
        (grammar.apply (.ofString "a") limit (Rule.seq rules) position scope run).1 := by
  intro h
  let rules : List Pattern :=
    [.sequence [], .build ⟨"dict", fun _ => .ok (some (.fields []))⟩ (.literal "a")]
  have hnested : (grammar.apply (.ofString "a") 5 (.sequence rules) 0 [] (.fresh true false)).1 =
      .matched ⟨⟨1, none⟩, []⟩ := rfl
  have hflat : (grammar.apply (.ofString "a") 5 (Rule.seq rules) 0 [] (.fresh true false)).1 =
      .matched ⟨⟨1, some (.fields [])⟩, []⟩ := rfl
  have hsame := h rules 5 0 [] (.fresh true false) (fun _ h => nomatch hnested.symm.trans h)
    (fun _ h => nomatch hflat.symm.trans h)
  exact nomatch hnested.symm.trans (hsame.trans hflat)

end Program

end Packrat
