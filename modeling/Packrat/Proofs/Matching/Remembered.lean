import Packrat.Proofs.Matching.Compositional
import Packrat.Proofs.Matching.Limit
set_option autoImplicit false
set_option relaxedAutoImplicit false

/-!
# Matching with remembered results

A remembered result stands for an application that is not carried out. This changes nothing as long
as every remembered result is *vouched for*: under some limit the rule answers just so when nothing
is remembered, and what it would report then has already been heard, unless failures were kept
quiet. Applying a rule keeps this up, however it ends, because reports that were heard once stay
absorbed.

An application with remembered results needs no deeper nesting than one without, but it may need
less. Actions are therefore taken as families, by their limit: an answer of one member is the answer
of some member without remembered results, and a member runs into the limit only if it does so
without remembered results, too.

## Main definitions

* `Packrat.Grammar.Vouched` — a remembered result is what matching would give.
* `Packrat.Run.Sound` — all remembered results of a state are vouched for.
* `Packrat.Grammar.Faithful` — an action agrees with itself without remembered results.
* `Packrat.Grammar.Lawful` — a family of actions that is faithful at a limit.

## Main results

* `Packrat.Grammar.lawful_apply` — applying a rule is lawful under every limit.
-/

namespace Packrat

variable {ν α : Type} [DecidableEq ν]

/-- The outcome of a named rule that ended in the given way. -/
def endingOutcome (scope : Scope) : Option (Ending α) → Outcome α (Match α)
  | none => .unmatched
  | some ending => .matched ⟨ending, scope⟩

namespace Grammar

variable (g : Grammar ν α) (text : Text)

/-- A remembered result is what matching gives without remembered results, and what would be
reported on the way is absorbed, if the result stands for a rule whose reports were heard. -/
def Vouched (f : Frontier) (key : Memo.Key ν) (ending : Option (Ending α)) : Prop :=
  ∃ limit reports,
    (∀ scope, Action.Answers (g.apply text limit (.named key.name) key.position scope)
      (endingOutcome scope ending) reports) ∧
    (key.isQuiet = false → f.Absorbs reports)

variable {g text} in
/-- A result stays vouched for whatever is reported. -/
lemma Vouched.noteAll {f : Frontier} {key : Memo.Key ν} {ending : Option (Ending α)}
    (h : g.Vouched text f key ending) (reports : List Report) :
    g.Vouched text (f.noteAll reports) key ending := by
  obtain ⟨limit, own, ha, hf⟩ := h
  exact ⟨limit, own, ha, fun hk => (hf hk).noteAll reports⟩

end Grammar

/-- No rule less than none wants failures kept quiet, and all remembered results are vouched for. -/
structure Run.Sound (g : Grammar ν α) (text : Text) (run : Run ν α) : Prop where
  quiet_nonneg : 0 ≤ run.quiet
  vouched : ∀ memo, run.memo = some memo → ∀ key ending, memo.find? key = some ending →
    g.Vouched text run.frontier key ending

namespace Run

variable {g : Grammar ν α} {text : Text} {run after : Run ν α} {reports : List Report}

/-- What is vouched for in a state is so in every state behind it. -/
lemma Heard.vouched (h : Run.Heard reports run after) {key : Memo.Key ν}
    {ending : Option (Ending α)} (hv : g.Vouched text run.frontier key ending) :
    g.Vouched text after.frontier key ending := by
  rw [h.frontier]
  split
  · exact hv.noteAll reports
  · exact hv

/-- A state stays sound if reports are heard and nothing is remembered. -/
lemma Sound.heard (hs : run.Sound g text) (h : Run.Heard reports run after)
    (hm : after.memo = run.memo) : after.Sound g text :=
  ⟨h.quiet ▸ hs.quiet_nonneg, fun memo hmemo key ending hf =>
    h.vouched (hs.vouched memo (hm ▸ hmemo) key ending hf)⟩

/-- A fresh state is sound. -/
lemma sound_fresh (memoize tracing : Bool) : (fresh memoize tracing : Run ν α).Sound g text := by
  refine ⟨Int.le_refl _, fun memo hm key ending hf => ?_⟩
  cases memoize with
  | false => simp [fresh] at hm
  | true =>
    obtain rfl : ({} : Memo ν α) = memo := by simpa [fresh] using hm
    rw [Memo.find?_empty] at hf
    exact absurd hf (by simp)

end Run

namespace Grammar

variable (g : Grammar ν α) (text : Text) {β γ : Type}

/-- From a sound state, a member of a family of actions agrees with the family without remembered
results. -/
structure Faithful (c : Nat → Action ν α β) (limit : Nat) (run : Run ν α) : Prop where
  sound : (c limit run).2.Sound g text
  heard : ∃ reports, Run.Heard reports run (c limit run).2
  answers : (c limit run).1 ≠ .stopped .tooDeep →
    ∃ other reports, (c other).Answers (c limit run).1 reports ∧
      Run.Heard reports run (c limit run).2
  cut : (c limit run).1 = .stopped .tooDeep →
    ∃ reports, (c limit).Answers (.stopped .tooDeep) reports

/-- A family of actions, by their limit, whose answers are kept under larger limits, which is
steady, and which is faithful at the given limit. -/
structure Lawful (c : Nat → Action ν α β) (limit : Nat) : Prop where
  rising : ∀ low high run, low ≤ high → (c low run).ExtendedBy (c high run)
  steady : ∀ any, (c any).Steady
  faithful : ∀ run, run.Sound g text → g.Faithful text c limit run

/-- At a limit, applying any rule is lawful. -/
def LawfulAt (limit : Nat) : Prop :=
  ∀ rule position scope, g.Lawful text (fun limit => g.apply text limit rule position scope) limit

variable {g text}

/-- A steady outcome under one limit is the outcome under every larger one. -/
lemma answers_of_le (c : Nat → Action ν α β)
    (rising : ∀ low high run, low ≤ high → (c low run).ExtendedBy (c high run)) {low high : Nat}
    (hle : low ≤ high) {outcome : Outcome α β} {reports : List Report}
    (h : (c low).Answers outcome reports) (hne : outcome ≠ .stopped .tooDeep) :
    (c high).Answers outcome reports := by
  intro run hm hq
  have hrun := h run hm hq
  rw [rising low high run hle (by rw [hrun.1]; exact hne)]
  exact hrun

/-- Two steady outcomes of a family are the same, unless one of them ran into the limit. -/
lemma answers_unique (c : Nat → Action ν α β)
    (rising : ∀ low high run, low ≤ high → (c low run).ExtendedBy (c high run)) {low high : Nat}
    {outcome other : Outcome α β} {reports more : List Report}
    (h : (c low).Answers outcome reports) (h' : (c high).Answers other more)
    (hne : outcome ≠ .stopped .tooDeep) (hne' : other ≠ .stopped .tooDeep) : outcome = other := by
  have ha := answers_of_le c rising (Nat.le_max_left low high) h hne
  have ha' := answers_of_le c rising (Nat.le_max_right low high) h' hne'
  have hrun := (ha (.fresh false false) rfl (Int.le_refl _)).1
  have hrun' := (ha' (.fresh false false) rfl (Int.le_refl _)).1
  exact hrun.symm.trans hrun'

namespace Lawful

/-- An outcome without any work is lawful. -/
lemma pure (outcome : Outcome α β) (limit : Nat) :
    g.Lawful text (fun _ run => (outcome, run) : Nat → Action ν α β) limit where
  rising _ _ _ _ := .refl _
  steady _ := Action.steady_pure outcome
  faithful run hs :=
    ⟨hs, ⟨[], .refl run⟩, fun _ => ⟨0, [], Action.answers_pure outcome, .refl run⟩,
      fun h => ⟨[], h ▸ Action.answers_pure outcome⟩⟩

/-- Reporting that something is missing is lawful. -/
lemma missing (position : Nat) (description : String) (limit : Nat) :
    g.Lawful text (fun _ run => run.missing position description : Nat → Action ν α (Match α))
      limit where
  rising _ _ _ _ := .refl _
  steady _ := Action.steady_missing position description
  faithful run hs := by
    have hh := Run.Heard.fail run position description
    exact ⟨hs.heard hh (memo_fail run position description), ⟨_, hh⟩,
      fun _ => ⟨0, _, Action.answers_missing position description, hh⟩,
      fun h => nomatch h⟩

/-- What is done with the outcome of a lawful action is lawful if it is so for every outcome,
provided that an action which ran into the limit ends there.

**Proof sketch.** Without remembered results, the two actions give their answers under two limits,
and hence under the larger one. If the second action runs into the limit, then the first one either
does so without remembered results, too, or has the same outcome there. -/
lemma handle {c : Nat → Action ν α β} {limit : Nat} (h : g.Lawful text c limit)
    (next : Outcome α β → Nat → Action ν α γ) (hn : ∀ outcome, g.Lawful text (next outcome) limit)
    (hcut : ∀ any run, next (.stopped .tooDeep) any run = (.stopped .tooDeep, run)) :
    g.Lawful text (fun limit => (c limit).handle fun outcome => next outcome limit) limit where
  rising low high run hle hne := by
    simp only [Action.handle] at hne ⊢
    have hc : (c low run).1 ≠ .stopped .tooDeep := by
      intro hc
      rw [hc, hcut] at hne
      exact hne rfl
    rw [h.rising low high run hle hc]
    exact (hn _).rising low high _ hle hne
  steady any := (h.steady any).handle fun outcome => (hn outcome).steady any
  faithful run hs := by
    have hc := h.faithful run hs
    have hd := (hn (c limit run).1).faithful (c limit run).2 hc.sound
    obtain ⟨reports, hheard⟩ := hc.heard
    obtain ⟨more, hheard'⟩ := hd.heard
    refine ⟨hd.sound, ⟨_, hheard.trans hheard'⟩, fun hne => ?_, fun htd => ?_⟩
    · have hne' : (c limit run).1 ≠ .stopped .tooDeep := by
        intro h0
        rw [Action.handle, h0, hcut] at hne
        exact hne rfl
      obtain ⟨low, reports, ha, hh⟩ := hc.answers hne'
      obtain ⟨high, more, ha', hh'⟩ := hd.answers hne
      have hlow := answers_of_le c h.rising (Nat.le_max_left low high) ha hne'
      have hhigh := answers_of_le (next _) (hn _).rising (Nat.le_max_right low high) ha' hne
      exact ⟨max low high, _, hlow.handle hhigh, hh.trans hh'⟩
    · obtain ⟨outcome, reports, ha⟩ := h.steady limit
      by_cases ho : outcome = .stopped .tooDeep
      · rw [ho] at ha
        have hend : (next (.stopped .tooDeep) limit).Answers (.stopped .tooDeep) [] := by
          rw [funext (hcut limit)]
          exact Action.answers_pure _
        exact ⟨_, ha.handle hend⟩
      · by_cases hne' : (c limit run).1 = .stopped .tooDeep
        · obtain ⟨reports', ha'⟩ := hc.cut hne'
          have hrun := (ha (.fresh false false) rfl (Int.le_refl _)).1
          have hrun' := (ha' (.fresh false false) rfl (Int.le_refl _)).1
          exact absurd (hrun.symm.trans hrun') ho
        · obtain ⟨other, reports', ha', -⟩ := hc.answers hne'
          obtain ⟨more', hd'⟩ := hd.cut htd
          obtain rfl := answers_unique c h.rising ha ha' ho hne'
          exact ⟨_, ha.handle hd'⟩

/-- A lawful action is lawful inside other rules, some of which may want failures kept quiet. -/
lemma within {c : Nat → Action ν α β} {limit : Nat} (h : g.Lawful text c limit) {amount : Int}
    (ha : 0 ≤ amount) (deeper : Nat) :
    g.Lawful text (fun limit => (c limit).within amount deeper) limit where
  rising low high run hle hne := by
    simp only [Action.within] at hne ⊢
    rw [h.rising low high _ hle hne]
  steady any := (h.steady any).within ha deeper
  faithful run hs := by
    have hin : Run.Sound g text
        { run with quiet := run.quiet + amount, depth := run.depth + deeper } :=
      ⟨Int.add_nonneg hs.quiet_nonneg ha, hs.vouched⟩
    have hc := h.faithful _ hin
    have hq := hs.quiet_nonneg
    obtain ⟨reports, hheard⟩ := hc.heard
    refine ⟨⟨?_, hc.sound.vouched⟩, ⟨_, hheard.within hq ha⟩, fun hne => ?_, fun htd => ?_⟩
    · simpa only [Action.within, (hheard.within hq ha).quiet] using hq
    · obtain ⟨other, reports, hans, hh⟩ := hc.answers hne
      exact ⟨other, _, hans.within ha deeper, hh.within hq ha⟩
    · obtain ⟨reports, hans⟩ := hc.cut htd
      exact ⟨_, hans.within ha deeper⟩

end Lawful

/-- Being lawful is kept when actions are put together. -/
lemma compositional_lawful : Action.Compositional fun (β : Type) c limit =>
    g.Lawful text (c : Nat → Action ν α β) limit where
  pure := Lawful.pure
  missing := Lawful.missing
  handle := Lawful.handle
  within := Lawful.within

/-! ## Named rules -/

/-- What is remembered of an outcome, if anything is. -/
lemma memoAfter_find? {key other : Memo.Key ν} {outcome : Outcome α (Match α)}
    {memo after : Memo ν α} {ending : Option (Ending α)}
    (hm : memoAfter key outcome (some memo) = some after) (hf : after.find? other = some ending) :
    memo.find? other = some ending ∨
      other = key ∧ ∀ scope, inScope scope outcome = endingOutcome scope ending := by
  cases outcome with
  | stopped cause =>
    obtain rfl : memo = after := by simpa [memoAfter] using hm
    exact .inl hf
  | unmatched =>
    obtain rfl : memo.insert key none = after := by simpa [memoAfter] using hm
    rw [Memo.find?_insert] at hf
    split at hf
    · exact .inr ⟨‹_›, fun scope => by rw [← Option.some.inj hf]; rfl⟩
    · exact .inl hf
  | matched result =>
    obtain rfl : memo.insert key (some result.toEnding) = after := by simpa [memoAfter] using hm
    rw [Memo.find?_insert] at hf
    split at hf
    · exact .inr ⟨‹_›, fun scope => by rw [← Option.some.inj hf]; rfl⟩
    · exact .inl hf

/-- A state stays sound when a named rule ends, if what is remembered of it is vouched for then. -/
lemma sound_settleOutcome {key : Memo.Key ν} {outcome : Outcome α (Match α)} {run : Run ν α}
    (hs : run.Sound g text)
    (hv : ∀ ending, (∀ scope, inScope scope outcome = endingOutcome scope ending) →
      g.Vouched text (g.settleOutcome key outcome run).frontier key ending) :
    (g.settleOutcome key outcome run).Sound g text := by
  have hheard := g.heard_settleOutcome key outcome run
  refine ⟨by rw [hheard.quiet]; exact hs.quiet_nonneg, fun memo hm other ending hf => ?_⟩
  rw [memo_settleOutcome] at hm
  cases hold : run.memo with
  | none => rw [hold] at hm; cases outcome <;> simp [memoAfter] at hm
  | some old =>
    rw [hold] at hm
    rcases memoAfter_find? hm hf with hfound | ⟨rfl, hend⟩
    · exact hheard.vouched (hs.vouched old hold other ending hfound)
    · exact hv ending hend

/-- A named rule is applied faithfully where its result is remembered: the result is vouched for,
and its reports are absorbed. -/
lemma faithful_remembered {limit : Nat} {x : ν} {position : Nat} {scope : Scope} {run : Run ν α}
    (hs : run.Sound g text) {ending : Option (Ending α)}
    (hr : run.remembered? (run.key x position) = some ending) :
    g.Faithful text (fun limit => g.apply text limit (.named x) position scope) (limit + 2)
      run := by
  have happly : g.apply text (limit + 2) (.named x) position scope run =
      (endingOutcome scope ending, run) := by
    rw [apply_named, applyNamed, hr]
    cases ending <;> rfl
  obtain ⟨memo, hm, hf⟩ := Option.bind_eq_some_iff.1 hr
  obtain ⟨low, reports, ha, habs⟩ := hs.vouched memo hm _ ending hf
  have hheard : Run.Heard reports run run := by
    refine ⟨?_, rfl, rfl⟩
    split
    · rw [(habs (by simp [Run.key, *])).noteAll_eq]
    · rfl
  have hne : endingOutcome scope ending ≠ (.stopped .tooDeep : Outcome α (Match α)) := by
    cases ending <;> simp [endingOutcome]
  refine ⟨?_, ⟨reports, ?_⟩, fun _ => ⟨low, reports, ?_, ?_⟩, fun htd => ?_⟩
  · simpa only [happly] using hs
  · simpa only [happly] using hheard
  · simp only [happly]
    exact ha scope
  · simpa only [happly] using hheard
  · exact absurd (by simpa only [happly] using htd) hne

/-- A named rule is applied faithfully where its body is.

**Proof sketch.** The named rule answers as its body does, with and without remembered results. What
is remembered of it is vouched for, because the body has just made its reports. -/
lemma faithful_forgotten {limit : Nat} {x : ν} {position : Nat}
    (h : g.Lawful text (fun limit => g.applyBody (g.apply text limit) x position) limit)
    {scope : Scope} {run : Run ν α} (hs : run.Sound g text)
    (hr : run.remembered? (run.key x position) = none) :
    g.Faithful text (fun limit => g.apply text limit (.named x) position scope) (limit + 2)
      run := by
  have hrec := Run.Heard.record run (.enter run.depth x position)
  have hb := h.faithful _ (hs.heard hrec (memo_record run _))
  have happly := g.applyNamed_of_forgotten (g.apply text limit) x position scope hr
  rw [← apply_named] at happly
  obtain ⟨hsound, ⟨bodyReports, hheard⟩, hans, hcut⟩ := hb
  rcases hbody : g.applyBody (g.apply text limit) x position
    (run.record (.enter run.depth x position)) with ⟨outcome, after⟩
  simp only [hbody] at happly hsound hheard hans hcut
  have hsettle := g.heard_settleOutcome (run.key x position) outcome after
  have hne_of : inScope scope outcome ≠ .stopped .tooDeep → outcome ≠ .stopped .tooDeep := by
    rintro hne rfl
    exact hne rfl
  refine ⟨?_, ?_, fun hne => ?_, fun htd => ?_⟩
  · simp only [happly]
    refine sound_settleOutcome hsound fun ending hend => ?_
    have hne : outcome ≠ .stopped .tooDeep := by
      rintro rfl
      have hstop := hend []
      cases ending <;> simp [inScope, endingOutcome] at hstop
    obtain ⟨low, reports, ha, hh⟩ := hans hne
    have hall := (hrec.trans hh).trans hsettle
    refine ⟨low + 2, _, fun scope => hend scope ▸ g.answers_applyNamed scope ha, fun hquiet => ?_⟩
    have hzero : run.quiet = 0 := by
      have hq := hs.quiet_nonneg
      have hq' : ¬ 0 < run.quiet := by simpa [Run.key] using hquiet
      omega
    rw [hall.frontier, if_pos hzero]
    exact Frontier.absorbs_noteAll _ _
  · simp only [happly]
    exact ⟨_, (hrec.trans hheard).trans hsettle⟩
  · simp only [happly] at hne ⊢
    obtain ⟨low, reports, ha, hh⟩ := hans (hne_of hne)
    exact ⟨low + 2, _, g.answers_applyNamed scope ha, (hrec.trans hh).trans hsettle⟩
  · simp only [happly] at htd
    have htd' : outcome = .stopped .tooDeep := by
      cases outcome with
      | stopped cause => simpa [inScope] using htd
      | matched _ | unmatched => simp [inScope] at htd
    obtain ⟨reports, ha⟩ := hcut htd'
    exact ⟨_, g.answers_applyNamed scope ha⟩

/-- Applying a rule is lawful where it is faithful. -/
lemma lawful_of_faithful {limit : Nat} {rule : Rule ν α} {position : Nat} {scope : Scope}
    (h : ∀ run, run.Sound g text →
      g.Faithful text (fun limit => g.apply text limit rule position scope) limit run) :
    g.Lawful text (fun limit => g.apply text limit rule position scope) limit :=
  ⟨fun _ _ _ hle hne => g.apply_of_le hle hne, fun _ => g.steady_apply text _ _ _ _, h⟩

/-- A form of rule is applied lawfully if what it is put together from, one step of the limit below,
is lawful. -/
lemma lawful_of_step {limit : Nat} {rule : Rule ν α} {position : Nat} {scope : Scope}
    (h : g.Lawful text (fun limit => g.apply text (limit + 1) rule position scope) limit) :
    g.Lawful text (fun limit => g.apply text limit rule position scope) (limit + 1) := by
  refine lawful_of_faithful fun run hs => ?_
  have hf := h.faithful run hs
  refine ⟨hf.sound, hf.heard, fun hne => ?_, hf.cut⟩
  obtain ⟨other, reports, ha, hh⟩ := hf.answers hne
  exact ⟨other + 1, reports, ha, hh⟩

/-- Where no limit is left, nothing is done. -/
lemma lawful_of_spent {limit : Nat} {rule : Rule ν α} {position : Nat} {scope : Scope}
    (h : ∀ run, g.apply text limit rule position scope run = (.stopped .tooDeep, run)) :
    g.Lawful text (fun limit => g.apply text limit rule position scope) limit := by
  refine lawful_of_faithful fun run hs => ⟨?_, ⟨[], ?_⟩, fun hne => ?_, fun _ => ⟨[], ?_⟩⟩
  · simpa only [h run] using hs
  · simpa only [h run] using .refl run
  · exact absurd (congrArg Prod.fst (h run)) hne
  · rw [show g.apply text limit rule position scope = _ from funext h]
    exact Action.answers_pure _

/-- Applying a rule is lawful under every limit.

**Proof sketch.** Being lawful is kept when actions are put together; named rules are applied
faithfully because their bodies are. -/
theorem lawful_apply (limit : Nat) : g.LawfulAt text limit :=
  compositional_lawful.applyBy (fun _ _ _ => lawful_of_spent fun _ => rfl)
    (fun _ _ _ _ h => lawful_of_step h) (fun _ _ _ => lawful_of_spent fun _ => rfl)
    (fun limit x position scope h => lawful_of_faithful fun run hs => by
      cases hr : run.remembered? (run.key x position) with
      | some ending => exact faithful_remembered hs hr
      | none => exact faithful_forgotten h hs hr) limit

end Grammar

end Packrat
