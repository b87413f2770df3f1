import Mathlib.Data.List.Perm.Subperm
import Packrat.Program.Grammar
import Packrat.Proofs.Matching.Once
import Packrat.Proofs.Parsing.Beyond
import Packrat.Proofs.Value.Grouping
set_option autoImplicit false
set_option relaxedAutoImplicit false

/-!
# Rules that produce no value

Whether a rule can produce a value is found out by a search through the grammar, which enters the
body of every named rule once. The named rules that it has entered in vain are closed: nothing in
their bodies is a value but what other such rules would have to produce. So by induction on the
limit none of them produces a value, however they refer to each other.

## Main definitions

* `Packrat.Rule.Mute`, `Packrat.Grammar.Mute` — no value comes from a rule, or from any of some
  named rules, but from named rules that are known.

## Main results

* `Packrat.Grammar.exists_mute_of_produces` — what a search has entered in vain is closed.
* `Packrat.Grammar.mutes_apply` — such rules produce no value, as long as nothing is remembered.
* `Packrat.Grammar.no_value_lost` — if the search finds nothing, then neither does any run.
-/

namespace Packrat

variable {ν α β : Type} [DecidableEq ν]

/-- Nothing in the rule can be a value but what one of the known named rules produces. -/
def Rule.Mute (known : List ν) (rule : Rule ν α) : Prop :=
  ∀ place ∈ rule.yields, place.isKnown known = true

/-- Nothing in the bodies of the known named rules can be a value but what one of them produces. -/
def Grammar.Mute (g : Grammar ν α) (known : List ν) : Prop :=
  ∀ x ∈ known, ∀ body, (g.define x).body = .ok body → body.Mute known

/-! ## The search -/

/-- What is known stays known when more is. -/
lemma Yield.isKnown_mono {known more : List ν} (hsub : known ⊆ more) {place : Yield ν}
    (h : place.isKnown known = true) : place.isKnown more = true := by
  cases place with
  | value => cases h
  | rule x => exact decide_eq_true (hsub (of_decide_eq_true h))

/-- The first place that is still to be looked at, with all in front of it and behind it. -/
lemma Yield.pending_cases (entered : List ν) (pending : List (Yield ν)) :
    (∀ place ∈ pending, place.isKnown entered = true) ∧ pending.dropWhile (isKnown entered) = [] ∨
      ∃ front place rest, pending = front ++ place :: rest ∧
        (∀ other ∈ front, other.isKnown entered = true) ∧ place.isKnown entered = false ∧
        pending.dropWhile (isKnown entered) = place :: rest := by
  induction pending with
  | nil => exact .inl ⟨nofun, rfl⟩
  | cons place rest ih =>
    cases hplace : place.isKnown entered with
    | false =>
      exact .inr ⟨[], place, rest, rfl, nofun, hplace,
        List.dropWhile_cons_of_neg (by simp [hplace])⟩
    | true =>
      rw [List.dropWhile_cons_of_pos hplace]
      rcases ih with ⟨hall, hnil⟩ | ⟨front, other, behind, rfl, hfront, hother, hdrop⟩
      · exact .inl ⟨List.forall_mem_cons.2 ⟨hplace, hall⟩, hnil⟩
      · exact .inr ⟨place :: front, other, behind, rfl, List.forall_mem_cons.2 ⟨hplace, hfront⟩,
          hother, hdrop⟩

namespace Grammar

variable {g : Grammar ν α} {known : List ν}

/-- A search that ends in vain, and was not cut short, leaves the pending places and the bodies that
it has entered without any value of their own.

**Proof sketch.** Induction on the budget. It is larger than the number of named rules that are not
entered yet, so the search only ends when no place is left. -/
lemma exists_mute_of_producesFrom :
    ∀ (budget : Nat) (entered : List ν) (pending : List (Yield ν)),
      entered.Nodup → g.rules.length < budget + entered.length →
      g.producesFrom budget entered pending = .ok false →
      ∃ known, entered ⊆ known ∧ (∀ place ∈ pending, place.isKnown known = true) ∧
        ∀ x ∈ known, x ∉ entered → ∀ body, (g.define x).body = .ok body → body.Mute known
  | 0, entered, _, hnodup, hbudget, _ => by
    have hle := (hnodup.subperm fun x _ => g.mem_rules x).length_le
    omega
  | budget + 1, entered, pending, hnodup, hbudget, hsearch => by
    rcases Yield.pending_cases entered pending with
      ⟨hall, -⟩ | ⟨front, place, rest, rfl, hfront, hplace, hdrop⟩
    · exact ⟨entered, List.Subset.refl _, hall, fun x hx hnew => absurd hx hnew⟩
    · rw [producesFrom, hdrop] at hsearch
      cases place with
      | value => cases hsearch
      | rule x =>
        have hnew : x ∉ entered := of_decide_eq_false hplace
        cases hbody : (g.define x).body with
        | error mistake => simp [hbody, bind, Except.bind] at hsearch
        | ok body =>
          simp only [hbody, bind, Except.bind] at hsearch
          obtain ⟨known, hsub, hpending, hclosed⟩ :=
            exists_mute_of_producesFrom budget (x :: entered)
            (body.yields ++ rest) (List.nodup_cons.2 ⟨hnew, hnodup⟩)
            (by rw [List.length_cons]; omega) hsearch
          obtain ⟨hx, hentered⟩ := List.cons_subset.1 hsub
          obtain ⟨hbodyPlaces, hrest⟩ := List.forall_mem_append.1 hpending
          refine ⟨known, hentered, ?_, fun y hy hy' other hother => ?_⟩
          · refine List.forall_mem_append.2
              ⟨fun other hother => ?_, List.forall_mem_cons.2 ⟨?_, hrest⟩⟩
            · exact Yield.isKnown_mono hentered (hfront other hother)
            · exact decide_eq_true hx
          · by_cases heq : y = x
            · subst heq
              obtain rfl : body = other := Except.ok.inj (hbody.symm.trans hother)
              exact hbodyPlaces
            · exact hclosed y hy (by simp [heq, hy']) other hother

/-- If the search finds no value from a rule on, there are named rules that produce none but from
each other, and the rule has none but from them. -/
theorem exists_mute_of_produces {rule : Rule ν α} (h : g.produces rule = .ok false) :
    ∃ known, g.Mute known ∧ rule.Mute known := by
  obtain ⟨known, -, hrule, hclosed⟩ := exists_mute_of_producesFrom _ [] _ List.nodup_nil
    (by rw [List.length_nil]; omega) h
  exact ⟨known, fun x hx => hclosed x hx (List.not_mem_nil), hrule⟩

/-- Where there are no values, a search does not find any, however far it goes. -/
lemma producesFrom_ne_true (hknown : g.Mute known) :
    ∀ (budget : Nat) (entered : List ν) (pending : List (Yield ν)),
      (∀ place ∈ pending, place.isKnown known = true) →
      g.producesFrom budget entered pending ≠ .ok true
  | 0, _, _, _ => nofun
  | budget + 1, entered, pending, hpending => by
    rw [producesFrom]
    rcases Yield.pending_cases entered pending with
        ⟨-, hdrop⟩ | ⟨front, place, rest, rfl, -, -, hdrop⟩
    · rw [hdrop]
      nofun
    · obtain ⟨hplace, hrest⟩ := List.forall_mem_cons.1 (List.forall_mem_append.1 hpending).2
      rw [hdrop]
      cases place with
      | value => cases hplace
      | rule x =>
        cases hbody : (g.define x).body with
        | error mistake => simp [hbody, bind, Except.bind]
        | ok body =>
          simp only [hbody, bind, Except.bind]
          exact producesFrom_ne_true hknown budget _ _ (List.forall_mem_append.2
            ⟨hknown x (of_decide_eq_true hplace) body hbody, hrest⟩)

end Grammar

/-! ## Matching -/

/-- Nothing but missing values is merged to a missing value. -/
lemma mergeValues_eq_none {values : List (Option (Value α))} (h : ∀ value ∈ values, value = none) :
    mergeValues values = .ok none := by
  have hfold : values.foldl Gathered.add ({} : Gathered α) = {} := by
    induction values with
    | nil => rfl
    | cons value values ih =>
      obtain ⟨rfl, hothers⟩ := List.forall_mem_cons.1 h
      exact ih hothers
  rw [mergeValues, hfold]
  rfl

namespace Rule.Mute

variable {known : List ν} {rule : Rule ν α} {rules : List (Rule ν α)}

/-- All places of some parts are known if the first part is mute and those of the others are known.
-/
lemma partYields_cons :
    (∀ place ∈ yields.partYields (rule :: rules), place.isKnown known = true) ↔
      rule.Mute known ∧ ∀ place ∈ yields.partYields rules, place.isKnown known = true :=
  List.forall_mem_append

end Rule.Mute

namespace Matcher

variable {m : Matcher ν α} {known : List ν}

variable (known) in
/-- A matcher under which rules produce no value if it could only come from the known named
rules. -/
def Mutes (m : Matcher ν α) : Prop :=
  ∀ rule : Rule ν α, rule.Mute known → ∀ position scope,
    Action.Keeps Run.Blank (fun result => result.value = none) (m rule position scope)

/-- A row of mute rules produces nothing. -/
lemma Mutes.applyParts (h : m.Mutes known) :
    ∀ (rules : List (Rule ν α)),
      (∀ place ∈ Rule.yields.partYields rules, place.isKnown known = true) →
      ∀ (position : Nat) (scope : Scope),
        Action.Keeps Run.Blank (fun row => ∀ value ∈ row.values, value = none)
          (m.applyParts rules position scope)
  | [], _, _, _ => .matched nofun
  | rule :: rules, hrules, position, scope => by
    obtain ⟨hrule, hothers⟩ := Rule.Mute.partYields_cons.1 hrules
    refine (h rule hrule position scope).andThen fun first hfirst => ?_
    exact (Mutes.applyParts h rules hothers first.stop first.scope).andThen fun _ hvalues =>
      .matched (List.forall_mem_cons.2 ⟨hfirst, hvalues⟩)

/-- Mute alternatives produce nothing. -/
lemma Mutes.applyChoice (h : m.Mutes known) :
    ∀ (rules : List (Rule ν α)),
      (∀ place ∈ Rule.yields.partYields rules, place.isKnown known = true) →
      ∀ (position : Nat) (scope : Scope),
        Action.Keeps Run.Blank (fun result => result.value = none)
          (m.applyChoice rules position scope)
  | [], _, _, _ => .unmatched
  | rule :: rules, hrules, position, scope => by
    obtain ⟨hrule, hothers⟩ := Rule.Mute.partYields_cons.1 hrules
    rw [applyChoice_cons]
    refine (h rule hrule position scope).handle fun outcome hout => ?_
    cases outcome with
    | stopped cause => exact .stopped cause
    | matched result => exact .matched (hout result rfl)
    | unmatched => exact Mutes.applyChoice h rules hothers position scope

/-- The trips of a mute rule produce nothing. -/
lemma Mutes.applyTrips (h : m.Mutes known) {rule : Rule ν α} (hrule : rule.Mute known) (least : Int)
    (most : Option Int) :
    ∀ (budget : Nat) (count : Int) (position : Nat) (scope : Scope),
      Action.Keeps Run.Blank (fun trips => ∀ value ∈ trips.values, value = none)
        (m.applyTrips rule least most budget count position scope)
  | 0, _, _, _ => .matched nofun
  | budget + 1, count, position, scope => by
    rw [applyTrips_succ]
    split
    · exact .matched nofun
    · refine (h rule hrule position scope).handle fun outcome hout => ?_
      cases outcome with
      | unmatched => exact .matched nofun
      | stopped cause => exact .stopped cause
      | matched first =>
        have hfirst := hout first rfl
        simp only [afterTrip]
        split
        · exact .matched (List.forall_mem_singleton.2 hfirst)
        · exact (Mutes.applyTrips h hrule least most budget (count + 1) first.stop
            first.scope).andThen
            fun _ hvalues => .matched (List.forall_mem_cons.2 ⟨hfirst, hvalues⟩)

end Matcher

namespace Grammar

variable {g : Grammar ν α} {text : Text} {known : List ν}

/-- Whatever is applied, nothing is remembered afterwards if nothing was before. -/
lemma blank_apply (limit : Nat) (rule : Rule ν α) (position : Nat) (scope : Scope) :
    Action.Keeps Run.Blank (fun _ => True) (g.apply text limit rule position scope) := by
  intro run hblank
  have hmemo := (g.unwinds_applyBy text.reading limit rule position scope run).toSince.memoizes
  rw [show run.memo = none from hblank] at hmemo
  exact ⟨Option.not_isSome_iff_eq_none.1 (by simpa [apply] using hmemo), fun _ _ => trivial⟩

/-- Where no value could come from but from each other, rules produce none.

**Proof sketch.** Induction on the limit. Rules around such rules pass nothing on; a repetition
would make a list of nothing, but the search inside it does not find a value, either. -/
theorem mutes_apply (hknown : g.Mute known) : ∀ limit, Matcher.Mutes known (g.apply text limit)
  | 0 => fun _ _ _ _ => .stopped _
  | limit + 1 => by
    have ih := mutes_apply hknown limit
    intro rule hrule position scope
    cases rule with
    | named x =>
      cases limit with
      | zero => exact .stopped _
      | succ limit =>
        have hx : x ∈ known := of_decide_eq_true (hrule (.rule x) (List.mem_singleton_self _))
        exact Action.Keeps.applyNamed_of_blank (fun ending => ending.value = none)
          (fun body hbody => mutes_apply hknown limit body (hknown x hx body hbody) position [])
          scope
    | capture name rule => exact absurd (hrule .value (List.mem_singleton_self _)) nofun
    | build builder rule => exact absurd (hrule .value (List.mem_singleton_self _)) nofun
    | literal s =>
      rw [apply_literal_eq]
      exact .passOrMiss (fun _ hrun => hrun.fail _ _) fun _ => rfl
    | charSet set =>
      rw [apply_charSet_eq]
      exact .passOrMiss (fun _ hrun => hrun.fail _ _) fun _ => rfl
    | any =>
      rw [apply_any_eq]
      exact .passOrMiss (fun _ hrun => hrun.fail _ _) fun _ => rfl
    | lineStart =>
      rw [apply_lineStart_eq]
      refine .pure fun result hout => ?_
      unfold lineStartOutcome at hout
      split at hout
      · cases hout
      · split at hout <;> cases hout
        rfl
    | sequence rules =>
      refine (ih.applyParts rules hrule position scope).andThen fun row hrow => ?_
      rw [mergeValues_eq_none hrow]
      exact .matched rfl
    | choice rules => exact ih.applyChoice rules hrule position scope
    | repetition rule least most =>
      have htrips := ih.applyTrips (show rule.Mute known from hrule) least most
      refine (htrips _ 0 position scope).andThen fun trips _ => ?_
      split
      · exact .unmatched
      · split
        · exact .stopped _
        · rename_i value hvalue
          obtain ⟨producing, hproduces, rfl⟩ := g.repetitionValue_eq_ok_iff.1 hvalue
          cases producing with
          | false => exact .matched rfl
          | true => exact absurd hproduces (producesFrom_ne_true hknown _ _ _ hrule)
    | optional rule =>
      rw [apply_optional_eq]
      refine (ih rule hrule position scope).handle fun outcome hout => ?_
      cases outcome with
      | matched result => exact .matched (hout result rfl)
      | unmatched => exact .matched rfl
      | stopped cause => exact .stopped cause
    | lookahead negative rule =>
      rw [apply_lookahead_eq]
      refine ((blank_apply limit rule position scope).within Run.invariant_blank 1 0).handle
        fun outcome _ =>
        .pure fun result hout => ?_
      cases outcome <;> cases negative <;> cases hout <;> rfl
    | bind name rule =>
      exact (ih rule hrule position scope).andThen fun _ hresult => .matched hresult
    | backref name =>
      rw [apply_backref_eq]
      split
      · exact .stopped _
      · exact .passOrMiss (fun _ hrun => hrun.fail _ _) fun _ => rfl

/-- If the search finds no value that a rule could produce, then none is ever lost.

* In every state that a run goes through, whatever has been remembered, a match of the rule has no
  value.
* No trip of a repetition of the rule has one, so the repetition has nothing to make a list of.
* Whatever text the rule parses, the text is what comes of it. -/
theorem no_value_lost (g : Grammar ν α) (rule : Rule ν α) (h : g.produces rule = .ok false) :
    (∀ (text : Text) (memoize tracing : Bool) (run : Run ν α),
      g.Later text (.fresh memoize tracing) run →
      (∀ limit position scope result after,
        g.apply text limit rule position scope run = (.matched result, after) →
        result.value = none) ∧
      ∀ limit least most budget count position scope trips after,
        (g.apply text limit).applyTrips rule least most budget count position scope run =
            (.matched trips, after) →
          ∀ value ∈ trips.values, value = none) ∧
    ∀ settings text value, g.parse settings rule text = .ok value → value = .text text := by
  obtain ⟨known, hknown, hrule⟩ := exists_mute_of_produces h
  have hmatch : ∀ {text : Text} {run : Run ν α} {limit position scope result}, run.Sound g text →
      (g.apply text limit rule position scope run).1 = .matched result → result.value = none :=
    fun hs hout => (lawful_apply _ rule _ _).good
      (fun any => mutes_apply hknown any rule hrule _ _) hs hout
  refine ⟨fun text memoize tracing run hlater => ?_, fun settings text value hparse => ?_⟩
  · have hs := hlater.sound_distinct.1
    refine ⟨fun limit position scope result after happly =>
      hmatch hs (congrArg Prod.fst happly), ?_⟩
    intro limit least most budget count position scope trips after htrips
    have hall : g.LawfulAt text limit := lawful_apply limit
    have hlawful := compositional_lawful.applyTrips hall rule least most budget count position scope
    exact hlawful.good (fun any => (mutes_apply hknown any).applyTrips hrule least most budget count
      position scope) hs (congrArg Prod.fst htrips)
  · rw [parse, run] at hparse
    rcases hrun : g.apply (.ofString text) settings.limit rule 0 []
      (.fresh settings.memoize settings.tracing) with ⟨result | _ | _ | flaw, after⟩ <;>
      rw [hrun] at hparse
    · have hvalue : result.value = none :=
        hmatch (Run.sound_fresh settings.memoize settings.tracing) (congrArg Prod.fst hrun)
      simp only [Answer.conclude, hvalue, Option.getD_none, Text.toString_ofString] at hparse
      split at hparse
      · exact (Except.ok.inj hparse).symm
      · cases hparse
    · cases hparse
    · cases hparse
    · cases hparse

end Grammar

namespace Program

/-- Digits with separators are no value of their own, so parsing them gives the text. -/
theorem no_value_lost_digits :
    grammar.produces (.named .digits) = .ok false ∧
      (∃ result after,
        grammar.apply (.ofString "1_2") 20 (.named .digits) 0 [] (.fresh true false) =
        (.matched result, after) ∧ result.stop = 3 ∧ result.value = none) ∧
      (∃ trips after,
        (grammar.apply (.ofString "1_2") 20).applyTrips (.named .digits) 1 none 4 0 0 []
          (.fresh true false) = (.matched trips, after) ∧
        trips.values.length = 1 ∧ ∀ value ∈ trips.values, value = none) ∧
      grammar.parse {} (.named .digits) "1_2" = .ok (.text "1_2") := by
  have hnone : grammar.produces (.named .digits) = .ok false := rfl
  obtain ⟨hmatches, hparses⟩ := grammar.no_value_lost (.named .digits) hnone
  obtain ⟨hvalue, htrips⟩ := hmatches (.ofString "1_2") true false _ .refl
  refine ⟨hnone, ⟨_, _, rfl, rfl, hvalue 20 0 [] _ _ rfl⟩,
    ⟨_, _, rfl, rfl, htrips 20 1 none 4 0 0 [] _ _ rfl⟩, ?_⟩
  have hok : (grammar.parse {} (.named .digits) "1_2").isOk = true := by decide +kernel
  cases hparse : grammar.parse {} (.named .digits) "1_2" with
  | error failure => simp [hparse, Except.isOk, Except.toBool] at hok
  | ok value => rw [hparses {} "1_2" value hparse]

end Program

end Packrat
