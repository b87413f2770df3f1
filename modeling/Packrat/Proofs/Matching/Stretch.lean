import Packrat.Proofs.Matching.Keeping
import Packrat.Proofs.Matching.Unwinding
set_option autoImplicit false
set_option relaxedAutoImplicit false

/-!
# Matches are stretches of the text

A rule that is applied inside a text matches a stretch of it: from the position on, and up to a
place that is inside the text too. If the rule is known to take a character, then the stretch is not
empty. What was missing was missing inside the text as well.

This holds from one application to the next, because what is remembered are such stretches. It is
known of a named rule that it takes a character if this can be told from its body, where it may be
taken for granted of all named rules of which it is known.

## Main definitions

* `Packrat.Text.Stretch` — from where to where a match may go.
* `Packrat.Rule.advances` — whether the form of a rule shows that it takes a character.
* `Packrat.Frontier.Within`, `Packrat.Run.InText` — states of work inside a text.

## Main results

* `Packrat.Grammar.keepsTo_apply` — rules that are applied inside a text match stretches of it.
-/

namespace Packrat

variable {ν α : Type}

/-! ## Stretches -/

/-- A stretch of a text, which is not empty if a character was taken. -/
structure Text.Stretch (t : Text) (moved : Bool) (start stop : Nat) : Prop where
  start_le : start ≤ stop
  stop_le : stop ≤ t.size
  start_lt : moved = true → start < stop

namespace Text.Stretch

variable {t : Text} {moved other : Bool} {start middle stop : Nat}

/-- Where nothing is taken, there is an empty stretch. -/
lemma empty (h : start ≤ t.size) : t.Stretch false start start := ⟨Nat.le_refl _, h, nofun⟩

/-- A stretch behind another one makes up a longer one. -/
lemma trans (h : t.Stretch moved start middle) (h' : t.Stretch other middle stop) :
    t.Stretch (moved || other) start stop := by
  refine ⟨Nat.le_trans h.start_le h'.start_le, h'.stop_le, fun hor => ?_⟩
  rcases Bool.or_eq_true_iff.1 hor with hm | ho
  · exact Nat.lt_of_lt_of_le (h.start_lt hm) h'.start_le
  · exact Nat.lt_of_le_of_lt h.start_le (h'.start_lt ho)

/-- A stretch that is not empty is a stretch. -/
lemma mono (h : t.Stretch moved start stop) (hm : other = true → moved = true) :
    t.Stretch other start stop :=
  ⟨h.start_le, h.stop_le, fun ho => h.start_lt (hm ho)⟩

/-- Of a stretch it may be forgotten that a character was taken. -/
lemma forget (h : t.Stretch moved start stop) : t.Stretch false start stop :=
  h.mono Bool.false_ne_true.elim

/-- Where characters stand in a row, they are a stretch. -/
lemma of_hasAt {cs : List Char} (h : t.hasAt cs start = true) :
    t.Stretch (decide (cs ≠ [])) start (start + cs.length) := by
  obtain ⟨hstart, hprefix⟩ := (t.hasAt_iff cs start).1 h
  have hlength := hprefix.length_le
  rw [List.length_drop] at hlength
  change cs.length ≤ t.size - start at hlength
  refine ⟨Nat.le_add_right _ _, by omega, fun hne => ?_⟩
  have hpos := List.length_pos_iff.2 (of_decide_eq_true hne)
  omega

/-- Where a character stands, it is a stretch. -/
lemma of_char? {test : Char → Bool} (h : (t.char? start).any test = true) :
    t.Stretch true start (start + 1) := by
  cases hc : t.char? start with
  | none =>
    rw [hc] at h
    cases h
  | some c =>
    obtain ⟨hlt, -⟩ := Array.getElem?_eq_some_iff.1 hc
    exact ⟨Nat.le_succ _, hlt, fun _ => Nat.lt_succ_self _⟩

end Text.Stretch

/-! ## Rules that take a character -/

/-- Whether the form of a rule shows that it takes a character wherever it matches, given the named
rules of which this is known. -/
def Rule.advances (known : ν → Bool) : Rule ν α → Bool
  | .sequence rules => anyAdvances rules
  | .choice rules => allAdvance rules
  | .repetition rule least _ => decide (1 ≤ least) && rule.advances known
  | .capture _ rule | .build _ rule | .bind _ rule => rule.advances known
  | .named x => known x
  | .literal s => decide (s ≠ "")
  | .charSet _ | .any => true
  | .lineStart | .optional _ | .lookahead _ _ | .backref _ => false
where
  /-- Whether one of the parts of a sequence takes a character. -/
  anyAdvances : List (Rule ν α) → Bool
    | [] => false
    | rule :: rules => rule.advances known || anyAdvances rules
  /-- Whether each of some alternatives takes a character. -/
  allAdvance : List (Rule ν α) → Bool
    | [] => true
    | rule :: rules => rule.advances known && allAdvance rules

/-- What is known of the named rules can be told from their bodies. -/
def Grammar.Advancing (g : Grammar ν α) (known : ν → Bool) : Prop :=
  ∀ x body, known x = true → (g.define x).body = .ok body → body.advances known = true

/-- Nothing needs to be known of named rules for matches to be stretches of the text. -/
lemma Grammar.advancing_of_none (g : Grammar ν α) : g.Advancing fun _ => false := nofun

/-! ## States of work inside a text -/

/-- The failures that were reported lie within a bound, and are kept in order. -/
structure Frontier.Within (bound : Nat) (f : Frontier) : Prop where
  position_le : f.position ≤ bound
  pairwise_expected : f.expected.Pairwise (· < ·)
  /-- Before anything is missing, the furthest position is the beginning. -/
  position_eq_zero : f.expected = [] → f.position = 0

namespace Frontier.Within

variable {bound : Nat} {f : Frontier}

/-- Before anything is reported, the furthest failure is at the beginning, within every bound. -/
lemma fresh (bound : Nat) : Frontier.Within bound {} := ⟨Nat.zero_le _, .nil, fun _ => rfl⟩

/-- A report within the bound leaves the furthest failure within it. -/
lemma note (h : f.Within bound) {position : Nat} (hp : position ≤ bound) (description : String) :
    (f.note position description).Within bound := by
  unfold Frontier.note
  split
  · exact ⟨hp, List.pairwise_singleton _ _, nofun⟩
  · split
    · have hmem : description ∈ insertSorted description f.expected :=
        (mem_insertSorted _ _ _).2 (.inl rfl)
      exact ⟨hp, pairwise_insertSorted h.pairwise_expected,
        fun hnil => absurd hnil (List.ne_nil_of_mem hmem)⟩
    · exact h

/-- Reports within the bound leave the furthest failure within it. -/
lemma noteAll (h : f.Within bound) {reports : List Report}
    (hr : ∀ report ∈ reports, report.1 ≤ bound) : (f.noteAll reports).Within bound := by
  induction reports generalizing f with
  | nil => exact h
  | cons report reports ih =>
    exact ih (h.note (hr report List.mem_cons_self) report.2)
      fun r hmem => hr r (List.mem_cons_of_mem _ hmem)

end Frontier.Within

variable [DecidableEq ν] {text : Text} {known : ν → Bool}

variable (text known) in
/-- A state of work inside a text: what was missing was missing in the text, and what is remembered
are stretches of it. -/
structure Run.InText (run : Run ν α) : Prop where
  frontier : run.frontier.Within text.size
  remembered : ∀ key ending, run.remembered? key = some (some ending) →
    text.Stretch (known key.name) key.position ending.stop

namespace Run.InText

variable {run after : Run ν α}

/-- A fresh state is inside every text. -/
lemma fresh (memoize tracing : Bool) :
    Run.InText text known (Run.fresh memoize tracing : Run ν α) where
  frontier := .fresh _
  remembered key ending h := by
    cases memoize <;> simp [Run.fresh, Run.remembered?] at h

/-- Reports that are heard inside the text leave a state of work inside it. -/
lemma heard (h : run.InText text known) {reports : List Report}
    (hheard : Run.Heard reports run after)
    (hm : after.memo = run.memo) (hr : ∀ report ∈ reports, report.1 ≤ text.size) :
    after.InText text known where
  frontier := by
    rw [hheard.frontier]
    split
    · exact h.frontier.noteAll hr
    · exact h.frontier
  remembered key ending hk := h.remembered key ending (by rwa [remembered?, ← hm])

/-- A report inside the text leaves a state of work inside it. -/
lemma fail (h : run.InText text known) {position : Nat} (hp : position ≤ text.size)
    (description : String) : (run.fail position description).InText text known :=
  h.heard (.fail run position description) (Grammar.memo_fail _ _ _) (by simpa using hp)

end Run.InText

variable (text known) in
/-- Whether a state of work is inside a text has nothing to do with its counters and the trace. -/
lemma Run.invariant_inText : Run.Invariant (Run.InText text known : Run ν α → Prop) where
  within _ _ _ h := ⟨h.frontier, h.remembered⟩
  record run event h := h.heard (.record run event) (Grammar.memo_record run event) (by simp)

/-! ## Putting rules together -/

namespace Matcher

variable {m : Matcher ν α}

variable (text known) in
/-- A matcher under which rules that are applied inside the text match stretches of it. -/
def KeepsTo (m : Matcher ν α) : Prop :=
  ∀ rule position scope, position ≤ text.size → Action.Keeps (Run.InText text known)
    (fun result => text.Stretch (rule.advances known) position result.stop) (m rule position scope)

/-- A row of rules matches the stretches of its parts, one behind the other. -/
lemma KeepsTo.applyParts (h : m.KeepsTo text known) :
    ∀ (rules : List (Rule ν α)) (position : Nat) (scope : Scope), position ≤ text.size →
      Action.Keeps (Run.InText text known)
        (fun row => text.Stretch (Rule.advances.anyAdvances known rules) position row.stop)
        (m.applyParts rules position scope)
  | [], _, _, hp => .matched (.empty hp)
  | rule :: rules, position, scope, hp =>
    (h rule position scope hp).andThen fun first hfirst =>
      (KeepsTo.applyParts h rules first.stop first.scope hfirst.stop_le).andThen
        fun _ hothers => .matched (hfirst.trans hothers)

/-- A choice matches the stretch of one of its alternatives. -/
lemma KeepsTo.applyChoice (h : m.KeepsTo text known) :
    ∀ (rules : List (Rule ν α)) (position : Nat) (scope : Scope), position ≤ text.size →
      Action.Keeps (Run.InText text known)
        (fun result => text.Stretch (Rule.advances.allAdvance known rules) position result.stop)
        (m.applyChoice rules position scope)
  | [], _, _, _ => .unmatched
  | rule :: rules, position, scope, hp => by
    rw [applyChoice_cons]
    refine (h rule position scope hp).handle fun outcome hout => ?_
    cases outcome with
    | stopped cause => exact .stopped cause
    | matched result =>
      exact .matched ((hout result rfl).mono fun hall => (Bool.and_eq_true_iff.1 hall).1)
    | unmatched =>
      exact (KeepsTo.applyChoice h rules position scope hp).mono fun _ hothers =>
        hothers.mono fun hall => (Bool.and_eq_true_iff.1 hall).2

/-- The trips of a repetition are a stretch, which is not empty if there was a trip and the rule
takes a character. -/
lemma KeepsTo.applyTrips (h : m.KeepsTo text known) (rule : Rule ν α) (least : Int)
    (most : Option Int) :
    ∀ (budget : Nat) (count : Int) (position : Nat) (scope : Scope), position ≤ text.size →
      Action.Keeps (Run.InText text known)
        (fun trips => text.Stretch (decide (trips.count ≠ count) && rule.advances known) position
          trips.stop)
        (m.applyTrips rule least most budget count position scope)
  | 0, _, _, _, hp => .matched ((Text.Stretch.empty hp).mono (by simp))
  | budget + 1, count, position, scope, hp => by
    have hnone : text.Stretch (decide (count ≠ count) && rule.advances known) position position :=
      (Text.Stretch.empty hp).mono (by simp)
    rw [applyTrips_succ]
    split
    · exact .matched hnone
    · refine (h rule position scope hp).handle fun outcome hout => ?_
      cases outcome with
      | unmatched => exact .matched hnone
      | stopped cause => exact .stopped cause
      | matched first =>
        have hfirst := hout first rfl
        simp only [afterTrip]
        split
        -- A trip that took nothing is the last one; a rule that takes a character makes none.
        · rename_i hstop
          rw [hstop] at hfirst
          exact .matched (hfirst.mono fun hand => (Bool.and_eq_true_iff.1 hand).2)
        · exact (KeepsTo.applyTrips h rule least most budget _ first.stop first.scope
            hfirst.stop_le).andThen fun _ hothers => .matched ((hfirst.trans hothers).mono
              fun hand => by simp [(Bool.and_eq_true_iff.1 hand).2])

end Matcher

namespace Grammar

variable {g : Grammar ν α}

/-- When a named rule has matched a stretch of the text, this may be remembered. -/
lemma inText_settleOutcome {key : Memo.Key ν} (hp : key.position ≤ text.size)
    {outcome : Outcome α (Match α)} {run : Run ν α} (hrun : run.InText text known)
    (hout : ∀ result, outcome = .matched result →
      text.Stretch (known key.name) key.position result.stop) :
    (g.settleOutcome key outcome run).InText text known where
  frontier := by
    rw [(g.heard_settleOutcome key outcome run).frontier]
    split
    · refine hrun.frontier.noteAll fun report hr => ?_
      cases outcome with
      | matched _ | stopped _ => cases hr
      | unmatched =>
        obtain ⟨_, -, rfl⟩ := Option.map_eq_some_iff.1 (Option.mem_toList.1 hr)
        exact hp
    · exact hrun.frontier
  remembered other ending hother := by
    -- Only the result of this rule is new; the others are what they were.
    by_cases heq : other = key
    · subst heq
      rw [Run.remembered?, memo_settleOutcome] at hother
      cases hm : run.memo with
      | none =>
        rw [hm] at hother
        cases outcome <;> cases hother
      | some memo =>
        rw [hm] at hother
        cases outcome with
        | matched result =>
          simp only [memoAfter, Option.map_some, Option.bind_some, Memo.find?_insert, if_pos,
            Option.some.injEq] at hother
          rw [← hother]
          exact hout result rfl
        | unmatched =>
          simp [memoAfter, Memo.find?_insert] at hother
        | stopped cause =>
          exact hrun.remembered other ending (by rw [Run.remembered?, hm]; exact hother)
    · rw [remembered?_settleOutcome_of_ne g heq] at hother
      exact hrun.remembered other ending hother

/-- A named rule matches the stretch that its body matches, or the one that is remembered. -/
lemma keepsTo_applyNamed {m : Matcher ν α} (h : m.KeepsTo text known) (hknown : g.Advancing known)
    (x : ν) {position : Nat} (hp : position ≤ text.size) (scope : Scope) :
    Action.Keeps (Run.InText text known)
      (fun result => text.Stretch (known x) position result.stop)
      (g.applyNamed m x position scope) := by
  refine .applyNamed (fun ending => text.Stretch (known x) position ending.stop)
    (Run.invariant_inText text known) (fun run ending hrun hr => hrun.remembered _ ending hr)
    (fun _ _ _ hafter hout => inText_settleOutcome hp hafter hout) (fun body hbody => ?_) scope
  exact (h body position [] hp).mono fun result hstretch =>
    hstretch.mono fun hx => hknown x body hx hbody

/-- Rules that are applied inside a text match stretches of it, and leave states of work inside it.

**Proof sketch.** Induction on the limit. Every form of rule passes over stretches that its inner
rules match, one behind the other; a named rule over the one that its body matches or that is
remembered. -/
theorem keepsTo_apply (hknown : g.Advancing known) :
    ∀ limit, Matcher.KeepsTo text known (g.apply text limit)
  | 0 => fun _ _ _ _ => .stopped _
  | limit + 1 => by
    have ih := keepsTo_apply hknown limit
    intro rule position scope hp
    have hempty := Text.Stretch.empty hp
    cases rule with
    | named x =>
      cases limit with
      | zero => exact .stopped _
      | succ limit => exact keepsTo_applyNamed (keepsTo_apply hknown limit) hknown x hp scope
    | literal s =>
      rw [apply_literal_eq]
      refine .passOrMiss (fun _ hrun => hrun.fail hp _) fun hat => ?_
      have hstretch := Text.Stretch.of_hasAt hat
      rw [String.length_toList] at hstretch
      exact hstretch.mono fun hne => by simpa [Rule.advances] using hne
    | charSet set =>
      rw [apply_charSet_eq]
      exact .passOrMiss (fun _ hrun => hrun.fail hp _) Text.Stretch.of_char?
    | any =>
      rw [apply_any_eq]
      refine .passOrMiss (fun _ hrun => hrun.fail hp _) fun hsome => ?_
      have hany : (text.char? position).any (fun _ => true) = true := by simpa using hsome
      exact .of_char? hany
    | lineStart =>
      rw [apply_lineStart_eq]
      refine .pure fun result hout => ?_
      unfold lineStartOutcome at hout
      split at hout
      · cases hout
      · split at hout <;> cases hout
        exact hempty
    | sequence rules =>
      refine (ih.applyParts rules position scope hp).andThen fun row hrow => ?_
      split
      · exact .stopped _
      · exact .matched hrow
    | choice rules => exact ih.applyChoice rules position scope hp
    | repetition rule least most =>
      refine (ih.applyTrips rule least most _ 0 position scope hp).andThen fun trips htrips => ?_
      split
      · exact .unmatched
      · rename_i hcount
        split
        · exact .stopped _
        · refine .matched (htrips.mono fun hand => ?_)
          obtain ⟨hleast, hrule⟩ := Bool.and_eq_true_iff.1 hand
          -- No trip at all would be fewer than asked for.
          have hone : 1 ≤ least := of_decide_eq_true hleast
          exact Bool.and_eq_true_iff.2 ⟨decide_eq_true (by omega), hrule⟩
    | optional rule =>
      rw [apply_optional_eq]
      refine (ih rule position scope hp).handle fun outcome hout => ?_
      cases outcome with
      | matched result => exact .matched (hout result rfl).forget
      | unmatched => exact .matched hempty
      | stopped cause => exact .stopped cause
    | lookahead negative rule =>
      rw [apply_lookahead_eq]
      refine ((ih rule position scope hp).within (Run.invariant_inText text known) 1 0).handle
        fun outcome _ => .pure fun result hout => ?_
      cases outcome <;> cases negative <;> cases hout <;> exact hempty
    | capture name rule =>
      exact (ih rule position scope hp).andThen fun _ hresult => .matched hresult
    | build builder rule =>
      refine (ih rule position scope hp).andThen fun result hresult => ?_
      split
      · exact .stopped _
      · exact .matched hresult
    | bind name rule =>
      exact (ih rule position scope hp).andThen fun _ hresult => .matched hresult
    | backref name =>
      rw [apply_backref_eq]
      split
      · exact .stopped _
      · rename_i bound _
        refine .passOrMiss (fun _ hrun => hrun.fail hp _) fun hat => ?_
        have hstretch := Text.Stretch.of_hasAt hat
        rw [String.length_toList] at hstretch
        exact hstretch.forget

end Grammar

end Packrat
