import Mathlib.Data.List.Nodup
import Mathlib.Data.Nat.Find
import Packrat.Program.Grammar
import Packrat.Proofs.Matching.Inner
import Packrat.Proofs.Matching.Remembered
set_option autoImplicit false
set_option relaxedAutoImplicit false

/-!
# Results that are computed once

A named rule is looked up before its body is applied, and remembered afterwards. In between, its
body may apply any other rule, and the question is whether it may come back to the same rule at the
same position and remember its result before the outer application does.

It cannot. Without remembered results, a body that comes back to its own rule would need a larger
limit than itself. With remembered results nothing is applied that would not be applied without
them, so whatever is newly remembered within an application needs a smaller limit than the
application does.

## Main definitions

* `Packrat.Run.Distinct` — no result was remembered twice.
* `Packrat.Grammar.Frugal` — a family of actions that only remembers what needs a smaller limit.

## Main results

* `Packrat.Grammar.frugal_apply` — applications are frugal.
* `Packrat.Grammar.forgotten_applyBody` — a body does not remember the result of its own rule.
* `Packrat.Grammar.remembered_once` — what is remembered is kept, is remembered once, is not
  computed again, and is what matching gives without remembered results.
-/

namespace Packrat

variable {ν α β γ : Type} [DecidableEq ν]

/-! ## What is stored in a memo -/

namespace Memo

variable {memo : Memo ν α} {key : Key ν}

/-- A key is not found just if its position holds no result under it. -/
lemma find?_eq_none_iff :
    memo.find? key = none ↔ (key.name, key.isQuiet) ∉ (memo.column key.position).map Prod.fst := by
  simp only [find?, List.lookup_eq_none_iff, bne_iff_ne, ne_eq, List.mem_map, not_exists, not_and]
  exact forall₂_congr fun entry _ => not_congr eq_comm

omit [DecidableEq ν] in
/-- A new entry stands in front of its own column and changes no other one. -/
lemma column_insert (memo : Memo ν α) (key : Key ν) (result : Option (Ending α)) (position : Nat) :
    (memo.insert key result).column position =
      if position = key.position then ((key.name, key.isQuiet), result) :: memo.column position
      else memo.column position := by
  by_cases h : position = key.position
  · simp [column, insert, h]
  · simp [column, insert, Std.TreeMap.getElem?_insert, h, Ne.symm h]

omit [DecidableEq ν] in
/-- If no two results of a position have the same key, then no two results at all have. -/
lemma nodup_keys_toList (h : ∀ position, ((memo.column position).map Prod.fst).Nodup) :
    (memo.toList.map Prod.fst).Nodup := by
  have hkeys : memo.toList.map Prod.fst = memo.columns.toList.flatMap fun column =>
      (column.2.map Prod.fst).map fun entry => ⟨entry.1, column.1, entry.2⟩ := by
    simp [toList, List.map_flatMap, Function.comp_def]
  rw [hkeys, List.nodup_flatMap]
  constructor
  · rintro ⟨position, results⟩ hmem
    have hcolumn : memo.column position = results := by
      rw [column, Std.TreeMap.mem_toList_iff_getElem?_eq_some.1 hmem]
      rfl
    refine List.Nodup.map (fun k k' hk => ?_) (hcolumn ▸ h position)
    simpa [Prod.ext_iff] using hk
  · refine (Std.TreeMap.distinct_keys_toList (t := memo.columns)).imp fun {a b} hne => ?_
    simp only [Function.onFun, List.disjoint_left, List.mem_map]
    rintro _ ⟨k, -, rfl⟩ ⟨k', -, hk⟩
    exact hne (by simpa using (congrArg Key.position hk).symm)

end Memo

/-- No result was remembered twice: at every position, the keys of the results are distinct. -/
def Run.Distinct (run : Run ν α) : Prop :=
  ∀ memo, run.memo = some memo → ∀ position, ((memo.column position).map Prod.fst).Nodup

/-- A fresh state remembers nothing twice. -/
lemma Run.distinct_fresh (memoize tracing : Bool) :
    (Run.fresh memoize tracing : Run ν α).Distinct := by
  intro memo hm position
  cases memoize with
  | false => simp [fresh] at hm
  | true =>
    obtain rfl : ({} : Memo ν α) = memo := by simpa [fresh] using hm
    simp [Memo.column]

/-- Results stay distinct when one is remembered whose key was not. -/
lemma Grammar.distinct_settleOutcome (g : Grammar ν α) {key : Memo.Key ν}
    {outcome : Outcome α (Match α)} {run : Run ν α} (h : run.Distinct)
    (hkey : run.remembered? key = none) : (g.settleOutcome key outcome run).Distinct := by
  intro after hm position
  rw [memo_settleOutcome] at hm
  cases hold : run.memo with
  | none =>
    rw [hold] at hm
    cases outcome <;> simp [memoAfter] at hm
  | some memo =>
    have hforgotten : memo.find? key = none := by simpa [Run.remembered?, hold] using hkey
    have hinsert : ∀ ending, (((memo.insert key ending).column position).map Prod.fst).Nodup := by
      intro ending
      rw [Memo.column_insert]
      split
      · rename_i heq
        rw [List.map_cons, List.nodup_cons, heq]
        exact ⟨Memo.find?_eq_none_iff.1 hforgotten, h memo hold key.position⟩
      · exact h memo hold position
    rw [hold] at hm
    cases outcome with
    | stopped cause =>
      obtain rfl : memo = after := by simpa [memoAfter] using hm
      exact h memo hold position
    | unmatched =>
      obtain rfl : memo.insert key none = after := by simpa [memoAfter] using hm
      exact hinsert none
    | matched result =>
      obtain rfl : memo.insert key (some result.toEnding) = after := by simpa [memoAfter] using hm
      exact hinsert _

/-! ## Limits that are enough -/

/-- As long as nothing is remembered, the limit is enough for the family of actions. -/
def Action.Enough (c : Nat → Action ν α β) (limit : Nat) : Prop :=
  (c limit (.fresh false false)).1 ≠ .stopped .tooDeep

/-- A steady action has the same outcome in every state in which nothing is remembered. -/
lemma Action.Steady.outcome_eq {c : Action ν α β} (h : c.Steady) {run : Run ν α}
    (hm : run.memo = none) (hq : 0 ≤ run.quiet) : (c run).1 = (c (.fresh false false)).1 := by
  obtain ⟨outcome, reports, h⟩ := h
  exact (h run hm hq).1.trans (h (.fresh false false) rfl (Int.le_refl _)).1.symm

namespace Grammar

variable (g : Grammar ν α) (text : Text)

/-- Applying the body of a named rule, by the limit for what is inside it. -/
abbrev bodyFamily (x : ν) (position : Nat) : Nat → Action ν α (Match α) :=
  fun limit => g.applyBody (g.apply text limit) x position

/-- What was not remembered before and is now needs a limit below the given one. -/
def Gains (limit : Nat) (before after : Run ν α) : Prop :=
  ∀ key ending, after.remembered? key = some ending → before.remembered? key = none →
    ∃ low < limit, Action.Enough (g.bodyFamily text key.name key.position) low

/-- A lawful family of actions that only remembers what needs a limit below the given one, if this
is enough for it. -/
structure Frugal (c : Nat → Action ν α β) (limit : Nat) : Prop where
  lawful : ∀ any, g.Lawful text c any
  gains : Action.Enough c limit → ∀ any run, run.Sound g text → g.Gains text limit run (c any run).2

variable {g text}

/-- A state with the same memo has gained nothing. -/
lemma Gains.of_memo_eq {limit : Nat} {before after : Run ν α} (h : after.memo = before.memo) :
    g.Gains text limit before after := by
  intro key ending hk hforgotten
  rw [Run.remembered?, h, ← Run.remembered?, hforgotten] at hk
  cases hk

/-- What is gained in two steps is gained in one. -/
lemma Gains.trans {limit : Nat} {before between after : Run ν α}
    (h : g.Gains text limit before between) (h' : g.Gains text limit between after) :
    g.Gains text limit before after := by
  intro key ending hk hforgotten
  cases hbetween : between.remembered? key with
  | none => exact h' key ending hk hbetween
  | some _ => exact h key _ hbetween hforgotten

/-- What is remembered under a limit is so under a higher one. -/
lemma Gains.mono {low high : Nat} {before after : Run ν α} (h : g.Gains text low before after)
    (hle : low ≤ high) : g.Gains text high before after := by
  intro key ending hk hforgotten
  obtain ⟨limit, hlt, henough⟩ := h key ending hk hforgotten
  exact ⟨limit, Nat.lt_of_lt_of_le hlt hle, henough⟩

/-- Being frugal is kept when actions are put together.

**Proof sketch.** If the limit is enough for an action and for what is done with its outcome,
without remembered results, then it is enough for each of them. With remembered results the first
action has the same outcome, unless it is cut short, and then nothing more is remembered. -/
lemma compositional_frugal : Action.Compositional fun (β : Type) c limit =>
    g.Frugal text (c : Nat → Action ν α β) limit where
  pure outcome limit := ⟨fun any => .pure outcome any, fun _ _ _ _ => .of_memo_eq rfl⟩
  missing position description limit :=
    ⟨fun any => .missing position description any,
      fun _ _ run _ => .of_memo_eq (memo_fail run position description)⟩
  handle {_ _ c limit} hc next hn hcut := by
    refine ⟨fun any => (hc.lawful any).handle next (fun outcome => (hn outcome).lawful any) hcut,
      fun henough any run hs => ?_⟩
    obtain ⟨outcome, reports, hplain⟩ := (hc.lawful limit).steady limit
    obtain ⟨hout, hheard, hmemo⟩ := hplain (.fresh false false) rfl (Int.le_refl _)
    have hdeep : outcome ≠ .stopped .tooDeep := by
      rintro rfl
      rw [Action.Enough, Action.handle, hout, hcut] at henough
      exact henough rfl
    have hfirst := hc.gains (by rwa [Action.Enough, hout]) any run hs
    by_cases htd : (c any run).1 = .stopped .tooDeep
    -- Cut short, the first action is also the last one.
    · rw [Action.handle, htd, hcut]
      exact hfirst
    · have hfaithful := (hc.lawful any).faithful run hs
      obtain ⟨other, more, hans, -⟩ := hfaithful.answers htd
      have hsame := answers_unique c (hc.lawful any).rising hplain hans hdeep htd
      refine hfirst.trans ?_
      rw [Action.handle, ← hsame]
      refine (hn outcome).gains ?_ any _ hfaithful.sound
      rw [Action.Enough, Action.handle, hout] at henough
      rwa [Action.Enough, ← (((hn outcome).lawful limit).steady limit).outcome_eq hmemo
        (by rw [hheard.quiet]; exact Int.le_refl _)]
  within {_ c limit} hc {amount} ha deeper := by
    refine ⟨fun any => (hc.lawful any).within ha deeper, fun henough any run hs => ?_⟩
    refine hc.gains ?_ any { run with quiet := run.quiet + amount, depth := run.depth + deeper }
      ⟨Int.add_nonneg hs.quiet_nonneg ha, hs.vouched⟩
    rwa [Action.Enough, Action.within,
      ((hc.lawful limit).steady limit).outcome_eq rfl (Int.add_nonneg (Int.le_refl _) ha)]
      at henough

/-- A limit is enough for a named rule just if what is left of it is enough for the body. -/
lemma enough_named_iff {limit : Nat} {x : ν} {position : Nat} {scope : Scope} :
    Action.Enough (fun limit => g.apply text limit (.named x) position scope) (limit + 2) ↔
      Action.Enough (g.bodyFamily text x position) limit := by
  obtain ⟨outcome, reports, h⟩ := g.steady_applyBody (g.steady_apply text limit) x position
  have hbody := (h (.fresh false false) rfl (Int.le_refl _)).1
  have hnamed := (g.answers_applyNamed scope h (.fresh false false) rfl (Int.le_refl _)).1
  rw [← apply_named] at hnamed
  rw [Action.Enough, Action.Enough, hbody, hnamed]
  cases outcome <;> simp [inScope]

/-- What a named rule remembers needs a smaller limit than the rule itself. -/
lemma frugal_named {limit : Nat} {x : ν} {position : Nat}
    (h : g.Frugal text (g.bodyFamily text x position) limit) (scope : Scope) :
    g.Frugal text (fun limit => g.apply text limit (.named x) position scope) (limit + 2) where
  lawful any := lawful_apply any (.named x) position scope
  gains henough any run hs := by
    have hbody := enough_named_iff.1 henough
    match any with
    | 0 | 1 => exact .of_memo_eq rfl
    | any + 2 =>
      simp only [apply_named]
      cases hr : run.remembered? (run.key x position) with
      | some ending =>
        simp only [applyNamed, hr]
        cases ending <;> exact .of_memo_eq rfl
      | none =>
        rw [g.applyNamed_of_forgotten _ x position scope hr]
        have hrecord := memo_record run (.enter run.depth x position)
        have hgains := h.gains hbody any _ (hs.heard (Run.Heard.record run _) hrecord)
        intro key ending hk hforgotten
        by_cases heq : key = run.key x position
        · subst heq
          exact ⟨limit, by omega, hbody⟩
        · rw [g.remembered?_settleOutcome_of_ne heq] at hk
          refine hgains.mono (Nat.le_add_right limit 2) key ending hk ?_
          rwa [Run.remembered?, hrecord]

/-- Applications are frugal: what they remember needs a smaller limit than they do. -/
theorem frugal_apply (limit : Nat) (rule : Rule ν α) (position : Nat) (scope : Scope) :
    g.Frugal text (fun limit => g.apply text limit rule position scope) limit := by
  have hlawful : ∀ rule position scope any,
      g.Lawful text (fun limit => g.apply text limit rule position scope) any :=
    fun rule position scope any => lawful_apply any rule position scope
  refine compositional_frugal.applyBy (fun rule position scope => ?_)
    (fun limit rule position scope h => ?_) (fun x position scope => ?_)
    (fun limit x position scope h => frugal_named h scope) limit rule position scope
  · exact ⟨hlawful rule position scope, fun henough => absurd rfl henough⟩
  · refine ⟨hlawful rule position scope, fun henough any run hs => ?_⟩
    cases any with
    | zero => exact .of_memo_eq rfl
    | succ any => exact (h.gains henough any run hs).mono (Nat.le_succ limit)
  · exact ⟨hlawful (.named x) position scope, fun henough => absurd rfl henough⟩

/-! ## A rule is not applied inside itself -/

/-- Nothing that is done inside a named rule remembers the result of this rule, however its body
ends.

**Proof sketch.** What is remembered is vouched for, so some limit is enough for the body. The least
such limit is enough for what the body does, which therefore only remembers what needs a smaller
one. -/
lemma forgotten_applyBody {run : Run ν α} (hs : run.Sound g text) {key : Memo.Key ν}
    (hforgotten : run.remembered? key = none) (limit : Nat) :
    (g.applyBody (g.apply text limit) key.name key.position run).2.remembered? key = none := by
  have hfrugal : ∀ any, g.Frugal text (g.bodyFamily text key.name key.position) any := fun any =>
    compositional_frugal.applyBody (fun rule position scope => frugal_apply any rule position scope)
      g key.name key.position
  -- Suppose that the result is remembered in the end. Then some limit is enough for the body, and
  -- the least one leads to a smaller one, because the body remembers what needs less than itself.
  by_contra hremembered
  obtain ⟨ending, hending⟩ := Option.ne_none_iff_exists'.1 hremembered
  obtain ⟨memo, hm, hf⟩ := Option.bind_eq_some_iff.1 hending
  have hsound := ((hfrugal limit).lawful limit |>.faithful run hs).sound
  obtain ⟨enough, reports, hans, -⟩ := hsound.vouched memo hm key ending hf
  have hbody : ∃ low, Action.Enough (g.bodyFamily text key.name key.position) low := by
    have hout := (hans [] (.fresh false false) rfl (Int.le_refl _)).1
    match enough, hout with
    | 0, hout | 1, hout => cases ending <;> cases hout
    | low + 2, hout =>
      refine ⟨low, enough_named_iff.1 (?_ : Action.Enough (fun limit =>
        g.apply text limit (.named key.name) key.position []) (low + 2))⟩
      rw [Action.Enough, hout]
      cases ending <;> simp [endingOutcome]
  classical
  obtain ⟨low, hlt, hlow⟩ :=
    (hfrugal (Nat.find hbody)).gains
    (Nat.find_spec hbody) limit run hs key ending hending hforgotten
  exact Nat.find_min hbody hlt hlow

/-- Applications keep results distinct, and keep what is remembered vouched for.

**Proof sketch.** A named rule remembers its result once its body has ended, and the body has not
remembered it. -/
lemma distinct_apply (limit : Nat) (rule : Rule ν α) (position : Nat) (scope : Scope)
    {run : Run ν α} (hs : run.Sound g text) (hd : run.Distinct) :
    (g.apply text limit rule position scope run).2.Distinct := by
  -- That a body does not remember its own result is only known of sound states, so being lawful has
  -- to be carried along.
  have hcomp : Action.Compositional fun (β : Type) (c : Nat → Action ν α β) limit =>
      g.Lawful text c limit ∧
        ∀ run, run.Sound g text → run.Distinct → (c limit run).2.Distinct := by
    refine ⟨fun outcome limit => ⟨.pure outcome limit, fun _ _ hd => hd⟩,
      fun position description limit => ⟨.missing position description limit, fun run _ hd => ?_⟩,
      fun hc next hn hcut => ⟨hc.1.handle next (fun outcome => (hn outcome).1) hcut,
        fun run hs hd => (hn _).2 _ (hc.1.faithful run hs).sound (hc.2 run hs hd)⟩,
      fun hc amount ha deeper => ⟨hc.1.within ha deeper, fun run hs hd => ?_⟩⟩
    · intro memo hm
      exact hd memo ((memo_fail run position description).symm.trans hm)
    · exact hc.2 { run with quiet := run.quiet + amount, depth := run.depth + deeper }
        ⟨Int.add_nonneg hs.quiet_nonneg ha, hs.vouched⟩ hd
  refine (hcomp.applyBy (fun rule position scope => ⟨lawful_apply 0 rule position scope, ?_⟩)
    (fun limit rule position scope h => ⟨lawful_apply (limit + 1) rule position scope, h.2⟩)
    (fun x position scope => ⟨lawful_apply 1 (.named x) position scope, ?_⟩)
    (fun limit x position scope h => ⟨lawful_apply (limit + 2) (.named x) position scope, ?_⟩)
    limit rule position scope).2 run hs hd
  · exact fun _ _ hd => hd
  · exact fun _ _ hd => hd
  · intro run hs hd
    change (g.applyNamed (g.apply text limit) x position scope run).2.Distinct
    cases hr : run.remembered? (run.key x position) with
    | some ending =>
      simp only [applyNamed, hr]
      cases ending <;> exact hd
    | none =>
      rw [g.applyNamed_of_forgotten _ x position scope hr]
      have hrecord := memo_record run (.enter run.depth x position)
      have hs' := hs.heard (Run.Heard.record run _) hrecord
      have hr' : (run.record (.enter run.depth x position)).remembered? (run.key x position) =
          none := by rwa [Run.remembered?, hrecord]
      refine g.distinct_settleOutcome (h.2 _ hs' fun memo hm => hd memo (hrecord.symm.trans hm)) ?_
      exact forgotten_applyBody hs' hr' limit

/-- In every state that a run goes through, what is remembered is vouched for and was remembered
once. -/
lemma Later.sound_distinct {run : Run ν α} {memoize tracing : Bool}
    (h : g.Later text (.fresh memoize tracing) run) : run.Sound g text ∧ run.Distinct := by
  refine Later.keeps (I := fun run => run.Sound g text ∧ run.Distinct) (fun a ha => ?_)
    (fun run amount deeper hamount hrun => ?_) (fun run event hrun => ?_) h
    ⟨Run.sound_fresh memoize tracing, Run.distinct_fresh memoize tracing⟩
  · exact ⟨((lawful_apply a.limit a.rule a.position a.scope).faithful a.run ha.1).sound,
      distinct_apply a.limit a.rule a.position a.scope ha.1 ha.2⟩
  · exact ⟨⟨Int.add_nonneg hrun.1.quiet_nonneg hamount, hrun.1.vouched⟩, hrun.2⟩
  · have hrecord := memo_record run event
    exact ⟨hrun.1.heard (Run.Heard.record run event) hrecord,
      fun memo hm => hrun.2 memo (hrecord.symm.trans hm)⟩

/-- A remembered result is what matching gives in a fresh state without remembered results, if the
limit is enough for that. -/
lemma outcome_of_remembered {run : Run ν α} (hs : run.Sound g text) {key : Memo.Key ν}
    {ending : Option (Ending α)} (hr : run.remembered? key = some ending) (limit : Nat)
    (scope : Scope) (tracing : Bool)
    (hne : (g.apply text limit (.named key.name) key.position scope (.fresh false tracing)).1 ≠
      .stopped .tooDeep) :
    (g.apply text limit (.named key.name) key.position scope (.fresh false tracing)).1 =
      endingOutcome scope ending := by
  obtain ⟨memo, hm, hf⟩ := Option.bind_eq_some_iff.1 hr
  obtain ⟨enough, reports, hans, -⟩ := hs.vouched memo hm key ending hf
  obtain ⟨outcome, more, hplain⟩ := g.steady_apply text limit (.named key.name) key.position scope
  have hout := (hplain (.fresh false tracing) rfl (Int.le_refl _)).1
  rw [hout] at hne ⊢
  refine answers_unique (fun limit => g.apply text limit (.named key.name) key.position scope)
    (fun _ _ _ hle hlt => g.apply_of_le hle hlt) hplain (hans scope) hne ?_
  cases ending <;> simp [endingOutcome]

/-- A rule whose result is remembered answers with it, whatever its body would do, and nothing else
is done. -/
lemma applyNamed_of_remembered {run : Run ν α} {x : ν} {position : Nat}
    {ending : Option (Ending α)} (hr : run.remembered? (run.key x position) = some ending)
    (m : Matcher ν α) (scope : Scope) :
    g.applyNamed m x position scope run = (endingOutcome scope ending, run) := by
  rw [applyNamed, hr]
  cases ending <;> rfl

/-- A rule that stops the parse does not remember a result of its own. -/
lemma forgotten_of_stopped {run : Run ν α} (hs : run.Sound g text) {x : ν} {position : Nat}
    (hr : run.remembered? (run.key x position) = none) {limit : Nat} {scope : Scope}
    {cause : Stop α}
    (hstop : (g.apply text limit (.named x) position scope run).1 = .stopped cause) :
    (g.apply text limit (.named x) position scope run).2.remembered? (run.key x position) =
      none := by
  match limit with
  | 0 | 1 => exact hr
  | limit + 2 =>
    rw [apply_named, g.applyNamed_of_forgotten _ x position scope hr] at hstop ⊢
    have hrecord := memo_record run (.enter run.depth x position)
    have hentered : (run.record (.enter run.depth x position)).remembered? (run.key x position) =
        none := by rwa [Run.remembered?, hrecord]
    have hbody := forgotten_applyBody (hs.heard (Run.Heard.record run _) hrecord) hentered limit
    simp only at hstop ⊢
    cases hout : (g.applyBody (g.apply text limit) x position
        (run.record (.enter run.depth x position))).1 with
    | stopped cause => exact hbody
    | matched result =>
      rw [hout] at hstop
      cases hstop
    | unmatched =>
      rw [hout] at hstop
      cases hstop

/-- Through any applications, one after the other and inside each other, what is remembered only
grows, and every result is computed once. In every state that is reached from a fresh one:

* no result was remembered twice, as a memo holds one entry for each time that a result was
  remembered;
* what is remembered is what the rule gives there in a fresh state without remembered results,
  unless that exceeds the limit;
* it is still remembered in every later state, and whenever the rule is applied there again, as
  quietly as then, the answer is at hand: its body is not applied, so that another way to apply it
  would make no difference, and the state stays as it is;
* a rule that stops the parse leaves no result of its own. -/
theorem remembered_once (g : Grammar ν α) (text : Text) (tracing : Bool) {run : Run ν α}
    (h : g.Later text (.fresh true tracing) run) :
    (∃ memo, run.memo = some memo ∧ (memo.toList.map Prod.fst).Nodup) ∧
    (∀ key ending, run.remembered? key = some ending →
      (∀ limit scope tracing,
        (g.apply text limit (.named key.name) key.position scope (.fresh false tracing)).1 ≠
          .stopped .tooDeep →
        (g.apply text limit (.named key.name) key.position scope (.fresh false tracing)).1 =
          endingOutcome scope ending) ∧
      ∀ later, g.Later text run later →
        later.remembered? key = some ending ∧
        (later.key key.name key.position = key → ∀ limit scope,
          g.apply text (limit + 2) (.named key.name) key.position scope later =
            (endingOutcome scope ending, later) ∧
          (∀ m, g.applyNamed m key.name key.position scope later =
            (endingOutcome scope ending, later)) ∧
          ∀ inner, ¬ g.Makes text ⟨limit, .named key.name, key.position, scope, later⟩ inner)) ∧
    ∀ limit x position scope cause, run.remembered? (run.key x position) = none →
      (g.apply text limit (.named x) position scope run).1 = .stopped cause →
      (g.apply text limit (.named x) position scope run).2.remembered? (run.key x position) =
        none := by
  obtain ⟨hs, hd⟩ := h.sound_distinct
  refine ⟨?_, fun key ending hr => ⟨?_, fun later hlater => ?_⟩, ?_⟩
  · obtain ⟨memo, hm⟩ := Option.isSome_iff_exists.1 (h.since.memoizes.trans rfl)
    exact ⟨memo, hm, Memo.nodup_keys_toList (hd memo hm)⟩
  · exact outcome_of_remembered hs hr
  · have hkept := hlater.since.remembered key ending hr
    refine ⟨hkept, fun hkey limit scope => ?_⟩
    have hathand : ∀ m, g.applyNamed m key.name key.position scope later =
        (endingOutcome scope ending, later) :=
      fun m => applyNamed_of_remembered (by rwa [hkey]) m scope
    refine ⟨hathand (g.apply text limit), hathand, fun inner hmakes => ?_⟩
    cases hmakes with
    | body hforgotten _ =>
      rw [hkey, hkept] at hforgotten
      cases hforgotten
  · exact fun limit x position scope cause hr hstop => forgotten_of_stopped hs hr hstop

end Grammar

namespace Program

/-- Of a list of a symbol and a range, it is remembered that a simple object stands behind the
bracket. The result is at hand when the rule is applied there again. A program is not found there
under a small limit, and nothing is remembered of it. -/
theorem remembered_once_list :
    ∃ run ending cause, grammar.Later (.ofString "[:a, 1..2]") (.fresh true false) run ∧
      (∃ memo, run.memo = some memo ∧ (memo.toList.map Prod.fst).Nodup) ∧
      run.remembered? ⟨.simpleObject, 1, false⟩ = some ending ∧
      (∀ limit scope,
        grammar.apply (.ofString "[:a, 1..2]") (limit + 2) (.named .simpleObject) 1 scope run =
          (endingOutcome scope ending, run)) ∧
      (grammar.apply (.ofString "[:a, 1..2]") 20 (.named .program) 1 [] run).1 = .stopped cause ∧
      (grammar.apply (.ofString "[:a, 1..2]") 20 (.named .program) 1 [] run).2.remembered?
        (run.key .program 1) = none := by
  let whole : Application Phrase Node := ⟨1000, .named .program, 0, [], .fresh true false⟩
  obtain ⟨run, hrun⟩ : ∃ run, run = (whole.answer grammar (.ofString "[:a, 1..2]")).2 := ⟨_, rfl⟩
  have hlater : grammar.Later (.ofString "[:a, 1..2]") (.fresh true false) run := by
    rw [hrun]
    exact .single (.past whole)
  have hsome : (run.remembered? ⟨.simpleObject, 1, false⟩).isSome = true := by
    rw [hrun]
    decide +kernel
  have hkey : run.key Phrase.simpleObject 1 = ⟨.simpleObject, 1, false⟩ := by
    rw [hrun]
    decide +kernel
  have hnone : (run.remembered? (run.key .program 1)).isNone = true := by
    rw [hrun]
    decide +kernel
  have hstop : (match (grammar.apply (.ofString "[:a, 1..2]") 20 (.named .program) 1 [] run).1 with
      | .stopped _ => true
      | _ => false) = true := by
    rw [hrun]
    decide +kernel
  obtain ⟨ending, hr⟩ := Option.isSome_iff_exists.1 hsome
  obtain ⟨hstored, hkept, hstopped⟩ := grammar.remembered_once (.ofString "[:a, 1..2]") false hlater
  cases hcause : (grammar.apply (.ofString "[:a, 1..2]") 20 (.named .program) 1 [] run).1 with
  | matched _ | unmatched => simp [hcause] at hstop
  | stopped cause =>
    refine ⟨run, ending, cause, hlater, hstored, hr, fun limit scope => ?_, hcause, ?_⟩
    · exact (((hkept _ ending hr).2 _ .refl).2 hkey limit scope).1
    · exact hstopped 20 .program 1 [] cause (Option.isNone_iff_eq_none.1 hnone) hcause

end Program

end Packrat
